import Xv6.Param
import Xv6.Lib.Table
import Mathlib.Data.Int.Basic
import Mathlib.Tactic.Common

/-!
# Virtual memory

The page tables of `vm.c`, with `growproc()` and `sys_sbrk()`. A page directory has
1024 entries that are empty or refer to a page table, and a page table has 1024 entries
that are empty or map a page. Pages of virtual memory and frames of physical memory are
numbered, so that address `a` is in page `a / PGSIZE`.

The functions take the allocator they run with, which may fail at any time: `Kmem` is
any state with operations `kalloc` and `kfree`. Frame 0, which belongs to the BIOS, is
never handed to the allocator, and a `Frame` is another one. A panic is an error.

The loops of `vm.c` count addresses in steps of `PGSIZE`, and here they count pages.
The addresses stay below `KERNBASE + PGSIZE`, so that the loops do not wrap around.
-/

namespace Xv6.Vm

open Table

/-- The first virtual address of the kernel. -/
abbrev KERNBASE : Nat := 0x80000000
/-- Entries of a page directory or a page table. -/
abbrev NPTENTRIES : Nat := 1024

/-- `PGROUNDUP(sz) / PGSIZE`. -/
def pages (sz : Nat) : Nat := (sz + PGSIZE - 1) / PGSIZE

/-- The number of pages below `KERNBASE`. -/
abbrev NUPAGE : Nat := KERNBASE / PGSIZE

/-- A frame that the allocator deals in. -/
abbrev Frame : Type := { f : Nat // f ≠ 0 }

/-- An entry of a page table with `PTE_P`, by the frame it maps the page to and `PTE_U`. -/
structure Pte where
  frame : Frame
  user : Bool
deriving DecidableEq

/-- A page table, in its frame. -/
structure Pgtab where
  frame : Frame
  pte : Nat → Option Pte

/-- A page directory, in its frame. -/
structure Pgdir where
  frame : Frame
  pde : Nat → Option Pgtab

def Pgdir.pte (d : Pgdir) (p : Nat) : Option Pte :=
  (d.pde (p / NPTENTRIES)).bind fun t => t.pte (p % NPTENTRIES)

/-- Assign to the entry for page `p`, in a page table that is there. -/
def Pgdir.setPte (d : Pgdir) (p : Nat) (e : Option Pte) : Pgdir :=
  { d with pde := upd d.pde (p / NPTENTRIES) ((d.pde (p / NPTENTRIES)).map fun t =>
      { t with pte := upd t.pte (p % NPTENTRIES) e }) }

structure Kmem (σ : Type) where
  kalloc : σ → Option Frame × σ
  kfree : Frame → σ → σ

/-- The panics of `vm.c`. -/
inductive Panic where
  | remap
  | kfree
  /-- `copyuvm: pte should exist`. -/
  | pteShouldExist
  /-- `copyuvm: page not present`. -/
  | pageNotPresent
deriving DecidableEq

variable {σ : Type} (k : Kmem σ)

/-- `walkpgdir` with `alloc`: the directory with a page table for page `p`. -/
def walkpgdir (d : Pgdir) (p : Nat) (s : σ) : Option Pgdir × σ :=
  match d.pde (p / NPTENTRIES) with
  | some _ => (some d, s)
  | none =>
    match k.kalloc s with
    | (none, s) => (none, s)
    | (some pgtab, s) =>
      (some { d with pde := upd d.pde (p / NPTENTRIES) (some ⟨pgtab, fun _ => none⟩) }, s)

/-- `mappages` of one page. Returns whether there was memory for its page table. -/
def mappages (d : Pgdir) (p : Nat) (frame : Frame) (user : Bool) (s : σ) :
    Except Panic (Bool × Pgdir × σ) :=
  match walkpgdir k d p s with
  | (none, s) => .ok (false, d, s)
  | (some d, s) =>
    if (d.pte p).isSome then .error .remap else .ok (true, d.setPte p (some ⟨frame, user⟩), s)

/-! ## Growing and shrinking -/

/-- The loop of `deallocuvm`, from page `p` to page `stop`. Where there is no page table the
loop goes on at the next one. -/
def deallocLoop : Nat → Nat → Nat → Pgdir → σ → Except Panic (Pgdir × σ)
  | 0, _, _, d, s => .ok (d, s)
  | m + 1, p, stop, d, s =>
    if p < stop then
      match d.pde (p / NPTENTRIES) with
      | none => deallocLoop m ((p / NPTENTRIES + 1) * NPTENTRIES) stop d s
      | some t =>
        match t.pte (p % NPTENTRIES) with
        | none => deallocLoop m (p + 1) stop d s
        | some e =>
          if e.frame.val = 0 then .error .kfree
          else deallocLoop m (p + 1) stop (d.setPte p none) (k.kfree e.frame s)
    else .ok (d, s)

def deallocuvm (d : Pgdir) (oldsz newsz : Nat) (s : σ) : Except Panic (Nat × Pgdir × σ) :=
  if oldsz ≤ newsz then .ok (oldsz, d, s)
  else
    (deallocLoop k (pages oldsz - pages newsz) (pages newsz) (pages oldsz) d s).map
      fun x => (newsz, x.1, x.2)

/-- How the loop of `allocuvm` ends. -/
inductive AllocEnd where
  | done
  | outOfMemory
  /-- There was no memory for the page table of a page that has got its frame. -/
  | outOfMemory2 (mem : Frame)

/-- The loop of `allocuvm`, over the given number of pages from page `p` on. -/
def allocLoop : Nat → Nat → Pgdir → σ → Except Panic (AllocEnd × Pgdir × σ)
  | 0, _, d, s => .ok (.done, d, s)
  | m + 1, p, d, s =>
    match k.kalloc s with
    | (none, s) => .ok (.outOfMemory, d, s)
    | (some mem, s) =>
      match mappages k d p mem true s with
      | .error e => .error e
      | .ok (false, d, s) => .ok (.outOfMemory2 mem, d, s)
      | .ok (true, d, s) => allocLoop m (p + 1) d s

def allocuvm (d : Pgdir) (oldsz newsz : Nat) (s : σ) : Except Panic (Nat × Pgdir × σ) :=
  if KERNBASE ≤ newsz then .ok (0, d, s)
  else if newsz < oldsz then .ok (oldsz, d, s)
  else
    match allocLoop k (pages newsz - pages oldsz) (pages oldsz) d s with
    | .error e => .error e
    | .ok (.done, d, s) => .ok (newsz, d, s)
    | .ok (.outOfMemory, d, s) => (deallocuvm k d newsz oldsz s).map fun x => (0, x.2.1, x.2.2)
    | .ok (.outOfMemory2 mem, d, s) =>
      (deallocuvm k d newsz oldsz s).map fun x => (0, x.2.1, k.kfree mem x.2.2)

/-! ## Whole address spaces -/

/-- Free the page tables whose entries are below the given number. -/
def freeTables (d : Pgdir) : Nat → σ → σ
  | 0, s => s
  | i + 1, s =>
    let s := freeTables d i s
    match d.pde i with
    | some t => k.kfree t.frame s
    | none => s

def freevm (d : Pgdir) (s : σ) : Except Panic σ :=
  (deallocuvm k d KERNBASE 0 s).map fun x => k.kfree d.frame (freeTables k x.2.1 NPTENTRIES x.2.2)

/-- The directory entries that the mappings of `kmap` lie in: `KERNBASE` to
`KERNBASE + PHYSTOP`, and from `DEVSPACE` on. -/
def kernTables : List Nat := List.range' 512 56 ++ List.range' 1016 8

/-- Page tables for the kernel's mappings. Their entries are the same in every directory, have
no `PTE_U`, and are not modelled. -/
def mapKernel : List Nat → Pgdir → σ → Except Panic (Option Pgdir × σ)
  | [], d, s => .ok (some d, s)
  | i :: is, d, s =>
    match walkpgdir k d (i * NPTENTRIES) s with
    | (some d, s) => mapKernel is d s
    | (none, s) => (freevm k d s).map fun s => (none, s)

def setupkvm (s : σ) : Except Panic (Option Pgdir × σ) :=
  match k.kalloc s with
  | (none, s) => .ok (none, s)
  | (some pgdir, s) => mapKernel k kernTables ⟨pgdir, fun _ => none⟩ s

/-- The loop of `copyuvm`, over the given number of pages from page `p` on. It says whether
there was memory for all of them. -/
def copyLoop (pgdir : Pgdir) : Nat → Nat → Pgdir → σ → Except Panic (Bool × Pgdir × σ)
  | 0, _, d, s => .ok (true, d, s)
  | m + 1, p, d, s =>
    match pgdir.pde (p / NPTENTRIES) with
    | none => .error .pteShouldExist
    | some t =>
      match t.pte (p % NPTENTRIES) with
      | none => .error .pageNotPresent
      | some e =>
        match k.kalloc s with
        | (none, s) => .ok (false, d, s)
        | (some mem, s) =>
          match mappages k d p mem e.user s with
          | .error e => .error e
          | .ok (false, d, s) => .ok (false, d, k.kfree mem s)
          | .ok (true, d, s) => copyLoop pgdir m (p + 1) d s

def copyuvm (pgdir : Pgdir) (sz : Nat) (s : σ) : Except Panic (Option Pgdir × σ) :=
  match setupkvm k s with
  | .error e => .error e
  | .ok (none, s) => .ok (none, s)
  | .ok (some d, s) =>
    match copyLoop k pgdir (pages sz) 0 d s with
    | .error e => .error e
    | .ok (true, d, s) => .ok (some d, s)
    | .ok (false, d, s) => (freevm k d s).map fun s => (none, s)

/-! ## `sbrk` -/

structure Proc where
  sz : Nat
  pgdir : Pgdir

/-- `sz + n`, as the C `uint`. -/
def newSize (sz : Nat) (n : Int32) : Nat := ((sz + n.toInt) % 2 ^ 32).toNat

/-- Set `sz` unless it is 0, which is the error value of `allocuvm`. -/
def setSize (pr : Proc) : Nat × Pgdir × σ → Int × Proc × σ
  | (0, d, s) => (-1, { pr with pgdir := d }, s)
  | (sz + 1, d, s) => (0, ⟨sz + 1, d⟩, s)

def growproc (pr : Proc) (n : Int32) (s : σ) : Except Panic (Int × Proc × σ) :=
  if 0 < n then (allocuvm k pr.pgdir pr.sz (newSize pr.sz n) s).map (setSize pr)
  else if n < 0 then (deallocuvm k pr.pgdir pr.sz (newSize pr.sz n) s).map (setSize pr)
  else .ok (0, pr, s)

def sysSbrk (pr : Proc) (n : Int32) (s : σ) : Except Panic (Int × Proc × σ) :=
  (growproc k pr n s).map fun x => (if x.1 < 0 then -1 else pr.sz, x.2.1, x.2.2)

/-! ## Entries -/

variable {k} {d d' : Pgdir} {p q : Nat} {s s' : σ}

theorem pte_setPte (h : d.pde (p / NPTENTRIES) ≠ none) (e : Option Pte) (q : Nat) :
    (d.setPte p e).pte q = if q = p then e else d.pte q := by
  obtain ⟨t, ht⟩ := Option.ne_none_iff_exists'.mp h
  simp only [Pgdir.pte, Pgdir.setPte, upd_apply, ht, Option.map_some]
  by_cases hq : q / NPTENTRIES = p / NPTENTRIES
  · rw [if_pos hq, Option.bind_some, hq, ht, Option.bind_some]
    dsimp only
    rw [upd_apply]
    by_cases hm : q % NPTENTRIES = p % NPTENTRIES
    · rw [if_pos hm, if_pos (by simp only [NPTENTRIES] at hq hm; omega)]
    · rw [if_neg hm, if_neg (by rintro rfl; exact hm rfl)]
  · rw [if_neg hq, if_neg (by rintro rfl; exact hq rfl)]

theorem pde_of_pte {e : Pte} (h : d.pte p = some e) : d.pde (p / NPTENTRIES) ≠ none := by
  intro hn
  simp only [Pgdir.pte, hn, Option.bind_none] at h
  cases h

theorem walkpgdir_some (h : walkpgdir k d p s = (some d', s')) :
    d'.pde (p / NPTENTRIES) ≠ none ∧ d'.frame = d.frame ∧ ∀ q, d'.pte q = d.pte q := by
  unfold walkpgdir at h
  split at h
  · rename_i t ht
    cases h
    exact ⟨by rw [ht]; rintro ⟨⟩, rfl, fun _ => rfl⟩
  · rename_i hnone
    split at h
    · cases h
    · cases h
      refine ⟨by dsimp only; rw [upd_same]; rintro ⟨⟩, rfl, fun q => ?_⟩
      simp only [Pgdir.pte, upd_apply]
      split
      · rename_i hq
        rw [hq, hnone]
        rfl
      · rfl

theorem mappages_spec (frame : Frame) (user : Bool) (hp : d.pte p = none) (s : σ) :
    ∃ ok d' s', mappages k d p frame user s = .ok (ok, d', s') ∧
      ∀ q, d'.pte q = if ok = true ∧ q = p then some ⟨frame, user⟩ else d.pte q := by
  unfold mappages
  cases hw : walkpgdir k d p s with
  | mk o s' =>
    cases o with
    | none => exact ⟨false, d, s', rfl, fun q => by simp⟩
    | some d' =>
      obtain ⟨hpde, -, hsame⟩ := walkpgdir_some hw
      have hnone : (d'.pte p).isSome = false := by rw [hsame, hp]; rfl
      refine ⟨true, d'.setPte p (some ⟨frame, user⟩), s', ?_, fun q => ?_⟩
      · dsimp only
        rw [hnone]
        rfl
      · rw [pte_setPte hpde, hsame]
        simp only [true_and]

/-! ## The loops -/

theorem deallocLoop_spec : ∀ (m p stop : Nat) (d : Pgdir) (s : σ), stop - p ≤ m →
      ∃ d' s', deallocLoop k m p stop d s = .ok (d', s') ∧
        ∀ q, d'.pte q = if p ≤ q ∧ q < stop then none else d.pte q
  | 0, p, stop, d, s, hm => by
    refine ⟨d, s, rfl, fun q => ?_⟩
    rw [if_neg (by omega)]
  | m + 1, p, stop, d, s, hm => by
    rw [deallocLoop]
    split
    · rename_i hp
      split
      · rename_i hnone
        obtain ⟨d', s', heq, hpte⟩ :=
          deallocLoop_spec m ((p / NPTENTRIES + 1) * NPTENTRIES) stop d s
            (by simp only [NPTENTRIES] at *; omega)
        refine ⟨d', s', heq, fun q => ?_⟩
        rw [hpte]
        -- the pages skipped are not mapped
        by_cases hq : q / NPTENTRIES = p / NPTENTRIES
        · have hdq : d.pte q = none := by rw [Pgdir.pte, hq, hnone]; rfl
          rw [hdq, ite_self, ite_self]
        · have : (p / NPTENTRIES + 1) * NPTENTRIES ≤ q ↔ p ≤ q := by
            simp only [NPTENTRIES] at *
            omega
          simp only [this]
      · rename_i t ht
        have hdp : d.pte p = t.pte (p % NPTENTRIES) := by rw [Pgdir.pte, ht]; rfl
        split
        · rename_i hnone
          obtain ⟨d', s', heq, hpte⟩ := deallocLoop_spec m (p + 1) stop d s (by omega)
          refine ⟨d', s', heq, fun q => ?_⟩
          rw [hpte]
          by_cases hq : q = p
          · rw [hq, hdp, hnone, ite_self, ite_self]
          · have : p + 1 ≤ q ↔ p ≤ q := by omega
            simp only [this]
        · rename_i e he
          have hpde : d.pde (p / NPTENTRIES) ≠ none := by rw [ht]; rintro ⟨⟩
          rw [if_neg e.frame.property]
          obtain ⟨d', s', heq, hpte⟩ :=
            deallocLoop_spec m (p + 1) stop (d.setPte p none) (k.kfree e.frame s) (by omega)
          refine ⟨d', s', heq, fun q => ?_⟩
          rw [hpte, pte_setPte hpde]
          by_cases hq : q = p
          · rw [hq, if_neg (by omega), if_pos rfl, if_pos ⟨Nat.le_refl p, hp⟩]
          · have : p + 1 ≤ q ↔ p ≤ q := by omega
            simp only [this, if_neg hq]
    · rename_i hp
      refine ⟨d, s, rfl, fun q => ?_⟩
      rw [if_neg (by omega)]

theorem allocLoop_spec : ∀ (m p : Nat) (d : Pgdir) (s : σ), (∀ q, p ≤ q → q < p + m → d.pte q = none) →
      ∃ l ret d' s', allocLoop k m p d s = .ok (ret, d', s') ∧ l ≤ m ∧ (ret = .done → l = m) ∧
        (∀ q, p ≤ q → q < p + l → d'.pte q ≠ none) ∧ ∀ q, ¬ (p ≤ q ∧ q < p + l) → d'.pte q = d.pte q
  | 0, p, d, s, _ => by
    refine ⟨0, .done, d, s, rfl, Nat.le_refl 0, fun _ => rfl, fun q h₁ h₂ => ?_, fun q _ => rfl⟩
    omega
  | m + 1, p, d, s, hfree => by
    rw [allocLoop]
    cases hk : k.kalloc s with
    | mk o s₁ =>
      cases o with
      | none =>
        refine ⟨0, .outOfMemory, d, s₁, rfl, Nat.zero_le _, by rintro ⟨⟩, ?_, fun q _ => rfl⟩
        intro q h₁ h₂
        omega
      | some mem =>
        obtain ⟨ok, d₁, s₂, heq, hpte⟩ :=
          mappages_spec (k := k) mem true (hfree p (Nat.le_refl p) (by omega)) s₁
        dsimp only
        rw [heq]
        cases ok with
        | false =>
          simp only [Bool.false_eq_true, false_and, if_false] at hpte
          refine ⟨0, .outOfMemory2 mem, d₁, s₂, rfl, Nat.zero_le _, by rintro ⟨⟩, ?_,
            fun q _ => hpte q⟩
          intro q h₁ h₂
          omega
        | true =>
          simp only [true_and] at hpte
          obtain ⟨l, ret, d', s', hrest, hl, hdone, hmapped, hsame⟩ :=
            allocLoop_spec m (p + 1) d₁ s₂ (fun q h₁ h₂ => by
              rw [hpte, if_neg (by omega)]
              exact hfree q (by omega) (by omega))
          refine ⟨l + 1, ret, d', s', hrest, by omega, fun h => by rw [hdone h], ?_, ?_⟩
          · intro q h₁ h₂
            by_cases hq : q = p
            · rw [hsame q (by omega), hpte, if_pos hq]
              rintro ⟨⟩
            · exact hmapped q (by omega) (by omega)
          · intro q hq
            rw [hsame q (by omega), hpte, if_neg (by omega)]

/-! ## The functions -/

theorem deallocuvm_spec (d : Pgdir) {oldsz newsz : Nat} (h : newsz < oldsz) (s : σ) :
    ∃ d' s', deallocuvm k d oldsz newsz s = .ok (newsz, d', s') ∧
      ∀ q, d'.pte q = if pages newsz ≤ q ∧ q < pages oldsz then none else d.pte q := by
  obtain ⟨d', s', heq, hpte⟩ := deallocLoop_spec (k := k) (pages oldsz - pages newsz) (pages newsz)
    (pages oldsz) d s (Nat.le_refl _)
  refine ⟨d', s', ?_, hpte⟩
  rw [deallocuvm, if_neg (by omega), heq]
  rfl

theorem pages_mono {a b : Nat} (h : a ≤ b) : pages a ≤ pages b :=
  Nat.div_le_div_right (by omega)

/-- `allocuvm` from a smaller to a larger size, with the pages between them not mapped: it maps
them all, or it returns 0 and has mapped none. -/
theorem allocuvm_spec {d : Pgdir} {oldsz newsz : Nat} (h : oldsz < newsz) (hk : newsz < KERNBASE)
    (hfree : ∀ q, pages oldsz ≤ q → q < pages newsz → d.pte q = none) (s : σ) :
    ∃ ret d' s', allocuvm k d oldsz newsz s = .ok (ret, d', s') ∧
      ((ret = newsz ∧ (∀ q, pages oldsz ≤ q → q < pages newsz → d'.pte q ≠ none) ∧
        ∀ q, ¬ (pages oldsz ≤ q ∧ q < pages newsz) → d'.pte q = d.pte q) ∨
      (ret = 0 ∧ ∀ q, d'.pte q = d.pte q)) := by
  have hmono := pages_mono (Nat.le_of_lt h)
  have hsum : pages oldsz + (pages newsz - pages oldsz) = pages newsz := by omega
  obtain ⟨l, ret, d₁, s₁, heq, hl, hdone, hmapped, hsame⟩ := allocLoop_spec (k := k)
    (pages newsz - pages oldsz) (pages oldsz) d s (fun q h₁ h₂ => hfree q h₁ (by omega))
  rw [allocuvm, if_neg (by omega), if_neg (by omega), heq]
  -- when the loop stops early, what it mapped lies between the two sizes
  obtain ⟨d₂, s₂, heq₂, hpte⟩ := deallocuvm_spec (k := k) d₁ h s₁
  have hback : ∀ q, d₂.pte q = d.pte q := by
    intro q
    rw [hpte]
    split
    · rename_i hq
      exact (hfree q hq.1 hq.2).symm
    · exact hsame q (by omega)
  cases ret with
  | done =>
    have hl' := hdone rfl
    refine ⟨newsz, d₁, s₁, rfl, .inl ⟨rfl, fun q h₁ h₂ => hmapped q h₁ (by omega), fun q hq => ?_⟩⟩
    exact hsame q (by omega)
  | outOfMemory =>
    refine ⟨0, d₂, s₂, ?_, .inr ⟨rfl, hback⟩⟩
    dsimp only
    rw [heq₂]
    rfl
  | outOfMemory2 mem =>
    refine ⟨0, d₂, k.kfree mem s₂, ?_, .inr ⟨rfl, hback⟩⟩
    dsimp only
    rw [heq₂]
    rfl

theorem freevm_ok (d : Pgdir) (s : σ) : ∃ s', freevm k d s = .ok s' := by
  obtain ⟨d', s', heq, -⟩ := deallocuvm_spec (k := k) d (show 0 < KERNBASE by decide) s
  refine ⟨k.kfree d.frame (freeTables k d' NPTENTRIES s'), ?_⟩
  rw [freevm, heq]
  rfl

theorem mapKernel_ok : ∀ (is : List Nat) (d : Pgdir) (s : σ), (∀ q, d.pte q = none) →
      ∃ o s', mapKernel k is d s = .ok (o, s') ∧ ∀ d', o = some d' → ∀ q, d'.pte q = none
  | [], d, s, h => ⟨some d, s, rfl, by rintro d' ⟨⟩; exact h⟩
  | i :: is, d, s, h => by
    rw [mapKernel]
    cases hw : walkpgdir k d (i * NPTENTRIES) s with
    | mk o s' =>
      cases o with
      | none =>
        obtain ⟨s'', hs⟩ := freevm_ok (k := k) d s'
        refine ⟨none, s'', ?_, by rintro d' ⟨⟩⟩
        dsimp only
        rw [hs]
        rfl
      | some d' =>
        refine mapKernel_ok is d' s' fun q => ?_
        rw [(walkpgdir_some hw).2.2, h]

theorem setupkvm_ok (s : σ) :
    ∃ o s', setupkvm k s = .ok (o, s') ∧ ∀ d, o = some d → ∀ q, d.pte q = none := by
  rw [setupkvm]
  cases hk : k.kalloc s with
  | mk o s' =>
    cases o with
    | none => exact ⟨none, s', rfl, by rintro d ⟨⟩⟩
    | some f => exact mapKernel_ok kernTables ⟨f, fun _ => none⟩ s' fun q => rfl

theorem copyLoop_ok {pgdir : Pgdir} :
    ∀ (m p : Nat) (d : Pgdir) (s : σ), (∀ q, p ≤ q → q < p + m → pgdir.pte q ≠ none) →
      (∀ q, p ≤ q → d.pte q = none) → ∃ x, copyLoop k pgdir m p d s = .ok x
  | 0, p, d, s, _, _ => ⟨_, rfl⟩
  | m + 1, p, d, s, hmapped, hfree => by
    rw [copyLoop]
    have hp := hmapped p (Nat.le_refl p) (by omega)
    split
    · rename_i hnone
      exact absurd (by rw [Pgdir.pte, hnone]; rfl) hp
    · rename_i t ht
      split
      · rename_i hnone
        exact absurd (by rw [Pgdir.pte, ht]; exact hnone) hp
      · rename_i e he
        cases hk : k.kalloc s with
        | mk o s₁ =>
          cases o with
          | none => exact ⟨_, rfl⟩
          | some mem =>
            obtain ⟨ok, d₁, s₂, heq, hpte⟩ :=
              mappages_spec (k := k) mem e.user (hfree p (Nat.le_refl p)) s₁
            dsimp only
            rw [heq]
            cases ok with
            | false => exact ⟨_, rfl⟩
            | true =>
              refine copyLoop_ok m (p + 1) d₁ s₂ (fun q h₁ h₂ => hmapped q (by omega) (by omega))
                fun q hq => ?_
              rw [hpte, if_neg (by omega)]
              exact hfree q (by omega)

theorem copyuvm_ok {pgdir : Pgdir} {sz : Nat} (h : ∀ q, q < pages sz → pgdir.pte q ≠ none) (s : σ) :
    ∃ x, copyuvm k pgdir sz s = .ok x := by
  obtain ⟨o, s₁, heq, hnone⟩ := setupkvm_ok (k := k) s
  rw [copyuvm, heq]
  cases o with
  | none => exact ⟨_, rfl⟩
  | some d =>
    obtain ⟨⟨ok, d', s₂⟩, hcopy⟩ := copyLoop_ok (k := k) (pages sz) 0 d s₁
      (fun q _ hq => h q (by omega)) (fun q _ => hnone d rfl q)
    dsimp only
    rw [hcopy]
    cases ok with
    | true => exact ⟨_, rfl⟩
    | false =>
      obtain ⟨s₃, hfree⟩ := freevm_ok (k := k) d' s₂
      dsimp only
      rw [hfree]
      exact ⟨_, rfl⟩

end Xv6.Vm
