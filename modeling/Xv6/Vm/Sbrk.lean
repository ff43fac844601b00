import Xv6.Vm.Basic
import Xv6.Lib.Trans

/-!
# `sbrk`

A process is in step when its mapped user pages are those below `PGROUNDUP(sz)`.
`sys_sbrk` keeps a process in step, fails without a trace and otherwise changes `sz` by
`n`, except when `n` is negative and at least as large as the size (`Fits`):

* `sbrk(-sz)` unmaps everything, and `growproc()` takes the new size 0 for an error, so
  that `sz` stays and -1 is returned. The next `fork()` panics;
* with `n < -sz` the new size wraps around, `deallocuvm` has nothing to do, and `sbrk`
  succeeds with `sz` as it was.
-/

namespace Xv6.Vm

open Table Trans

variable {σ : Type} (k : Kmem σ)

/-- The mapped user pages are exactly those below `PGROUNDUP(sz)`. -/
structure InStep (pr : Proc) : Prop where
  size : pr.sz ≤ KERNBASE
  mapped : ∀ p, p < NUPAGE → (pr.pgdir.pte p ≠ none ↔ p < pages pr.sz)

/-- What `sys_sbrk(n)` should do. -/
def SbrkSpec (pr : Proc) (n : Int32) (s : σ) : Prop :=
  ∃ ret pr' s', sysSbrk k pr n s = .ok (ret, pr', s') ∧ InStep pr' ∧
    (ret = -1 → pr'.sz = pr.sz ∧ ∀ p, p < NUPAGE → pr'.pgdir.pte p = pr.pgdir.pte p) ∧
    (ret ≠ -1 → (pr'.sz : Int) = pr.sz + n.toInt)

/-- The size stays positive, or there is nothing to give back. -/
def Fits (pr : Proc) (n : Int32) : Prop := 0 ≤ n ∨ pr.sz = 0 ∨ 0 < pr.sz + n.toInt

instance (pr : Proc) (n : Int32) : Decidable (Fits pr n) := inferInstanceAs (Decidable (_ ∨ _ ∨ _))

theorem pages_le {sz : Nat} (h : sz ≤ KERNBASE) : pages sz ≤ NUPAGE := by
  simp only [pages, NUPAGE, KERNBASE, PGSIZE] at *
  omega

theorem newSize_eq {sz : Nat} {n : Int32} (h₁ : 0 ≤ sz + n.toInt) (h₂ : sz ≤ KERNBASE) :
    (newSize sz n : Int) = sz + n.toInt := by
  have := n.toInt_lt
  simp only [newSize, KERNBASE] at *
  omega

theorem newSize_wrap {sz : Nat} {n : Int32} (h₁ : sz + n.toInt < 0) : sz ≤ newSize sz n := by
  have := n.le_toInt
  simp only [newSize] at *
  omega

variable {k} {pr : Proc} {n : Int32}

theorem InStep.same (h : InStep pr) {d : Pgdir} (hd : ∀ q, d.pte q = pr.pgdir.pte q) : InStep ⟨pr.sz, d⟩ :=
  ⟨h.size, fun p hp => by rw [show (Proc.mk pr.sz d).pgdir.pte p = pr.pgdir.pte p from hd p]; exact h.mapped p hp⟩

theorem sbrk_pos (h : InStep pr) (hn : 0 < n) (s : σ) : SbrkSpec k pr n s := by
  have hn' : 0 < n.toInt := by
    rw [Int32.lt_iff_toInt_lt] at hn
    exact hn
  have hsize := h.size
  have hnew : (newSize pr.sz n : Int) = pr.sz + n.toInt := newSize_eq (by omega) hsize
  by_cases hbig : KERNBASE ≤ newSize pr.sz n
  · refine ⟨-1, pr, s, ?_, h, fun _ => ⟨rfl, fun _ _ => rfl⟩, fun hne => absurd rfl hne⟩
    rw [sysSbrk, growproc, if_pos hn, allocuvm, if_pos hbig]
    rfl
  · have hpages := pages_le (Nat.le_of_lt (Nat.lt_of_not_le hbig))
    have hfree : ∀ q, pages pr.sz ≤ q → q < pages (newSize pr.sz n) → pr.pgdir.pte q = none := by
      intro q h₁ h₂
      by_contra hne
      have := (h.mapped q (by omega)).mp hne
      omega
    obtain ⟨ret, d, s', heq, hend⟩ := allocuvm_spec (k := k) (show pr.sz < newSize pr.sz n by omega)
      (Nat.lt_of_not_le hbig) hfree s
    rcases hend with ⟨rfl, hmapped, hsame⟩ | ⟨rfl, hsame⟩
    · obtain ⟨m, hm⟩ : ∃ m, newSize pr.sz n = m + 1 := ⟨newSize pr.sz n - 1, by omega⟩
      refine ⟨pr.sz, ⟨newSize pr.sz n, d⟩, s', ?_, ⟨?_, fun p hp => ?_⟩, fun he => ?_, fun _ => hnew⟩
      · rw [sysSbrk, growproc, if_pos hn, heq, hm]
        rfl
      · exact Nat.le_of_lt (Nat.lt_of_not_le hbig)
      · have hold := h.mapped p hp
        have hmono := pages_mono (show pr.sz ≤ newSize pr.sz n by omega)
        dsimp only
        by_cases hin : pages pr.sz ≤ p ∧ p < pages (newSize pr.sz n)
        · exact ⟨fun _ => hin.2, fun _ => hmapped p hin.1 hin.2⟩
        · rw [hsame p hin, hold]
          omega
      · omega
    · refine ⟨-1, ⟨pr.sz, d⟩, s', ?_, h.same hsame, fun _ => ⟨rfl, fun p _ => hsame p⟩,
        fun hne => absurd rfl hne⟩
      rw [sysSbrk, growproc, if_pos hn, heq]
      rfl

theorem sbrk_neg (h : InStep pr) (hn : n < 0) (s : σ) : SbrkSpec k pr n s ↔ Fits pr n := by
  have hn' : n.toInt < 0 := by
    rw [Int32.lt_iff_toInt_lt] at hn
    exact hn
  have hpos : ¬ 0 < n := by
    rw [Int32.lt_iff_toInt_lt]
    exact fun h => absurd h (by simpa using Int.le_of_lt hn')
  have hnn : ¬ 0 ≤ n := by
    rw [Int32.le_iff_toInt_le]
    simpa using hn'
  have hsize := h.size
  have hcall : sysSbrk k pr n s =
      ((deallocuvm k pr.pgdir pr.sz (newSize pr.sz n) s).map (setSize pr)).map
        fun x => (if x.1 < 0 then (-1 : Int) else pr.sz, x.2.1, x.2.2) := by
    rw [sysSbrk, growproc, if_neg hpos, if_pos hn]
  unfold SbrkSpec Fits
  rw [hcall]
  by_cases hwrap : pr.sz + n.toInt < 0
  · -- nothing is unmapped, and the old size is returned
    have hge := newSize_wrap hwrap
    rw [deallocuvm, if_pos hge]
    obtain hz | hz := Nat.eq_zero_or_pos pr.sz
    · refine iff_of_true ⟨-1, pr, s, ?_, h, fun _ => ⟨rfl, fun _ _ => rfl⟩, fun hne => absurd rfl hne⟩
        (.inr (.inl hz))
      rw [hz]
      rfl
    · refine iff_of_false ?_ ?_
      · rintro ⟨ret, pr', s', heq, -, -, hok⟩
        obtain ⟨m, hm⟩ : ∃ m, pr.sz = m + 1 := ⟨pr.sz - 1, by omega⟩
        rw [hm] at heq
        simp only [Except.map, setSize] at heq
        cases heq
        have := hok (by rw [if_neg (Int.lt_irrefl 0)]; omega)
        dsimp only at this
        omega
      · rintro (h | h | h)
        · exact hnn h
        · omega
        · omega
  · have hnew : (newSize pr.sz n : Int) = pr.sz + n.toInt := newSize_eq (by omega) hsize
    obtain ⟨d, s', heq, hpte⟩ := deallocuvm_spec (k := k) pr.pgdir
      (show newSize pr.sz n < pr.sz by omega) s
    rw [heq]
    have hmono := pages_mono (show newSize pr.sz n ≤ pr.sz by omega)
    obtain hz | hz := Nat.eq_zero_or_pos (newSize pr.sz n)
    · -- everything is unmapped, and the new size 0 is taken for an error
      refine iff_of_false ?_ ?_
      · rintro ⟨ret, pr', s'', heq, hstep, -, -⟩
        rw [hz] at heq hpte
        simp only [Except.map, setSize] at heq
        cases heq
        have hfirst : 0 < pages pr.sz := by
          simp only [pages, PGSIZE]
          omega
        have := (hstep.mapped 0 (by decide)).mpr hfirst
        dsimp only at this
        rw [hpte, if_pos ⟨Nat.zero_le _, hfirst⟩] at this
        exact this rfl
      · rintro (h | h | h)
        · exact hnn h
        · omega
        · omega
    · obtain ⟨m, hm⟩ : ∃ m, newSize pr.sz n = m + 1 := ⟨newSize pr.sz n - 1, by omega⟩
      refine iff_of_true ⟨pr.sz, ⟨newSize pr.sz n, d⟩, s', ?_, ⟨?_, fun p hp => ?_⟩, fun he => ?_,
        fun _ => hnew⟩ (.inr (.inr (by omega)))
      · rw [hm]
        rfl
      · dsimp only
        omega
      · have hold := h.mapped p hp
        dsimp only
        rw [hpte]
        split
        · rename_i hin
          exact iff_of_false (fun hne => hne rfl) (by omega)
        · rw [hold]
          omega
      · omega

theorem sbrk_zero (h : InStep pr) (hn : n = 0) (s : σ) : SbrkSpec k pr n s := by
  subst hn
  refine ⟨pr.sz, pr, s, rfl, h, fun he => ?_, fun _ => ?_⟩
  · omega
  · simp

theorem sbrk_iff (h : InStep pr) (s : σ) : SbrkSpec k pr n s ↔ Fits pr n := by
  rcases Int.lt_trichotomy n.toInt 0 with hn | hn | hn
  · exact sbrk_neg h (Int32.lt_iff_toInt_lt.mpr hn) s
  · have hz : n = 0 := Int32.toInt_inj.mp hn
    exact iff_of_true (sbrk_zero h hz s) (.inl (by rw [hz]; exact Int32.le_refl 0))
  · have hp : 0 < n := Int32.lt_iff_toInt_lt.mpr hn
    exact iff_of_true (sbrk_pos h hp s) (.inl (Int32.le_of_lt hp))

/-! ## Runs -/

/-- A call of `sys_sbrk`, unless it panics. -/
def sbrkStep (k : Kmem σ) (x : Proc × σ) (n : Int32) : Option (Proc × σ) :=
  match sysSbrk k x.1 n x.2 with
  | .ok (_, pr, s) => some (pr, s)
  | .error _ => none

theorem inStep_step {x y : Proc × σ} (hstep : sbrkStep k x n = some y) (hfits : Fits x.1 n)
    (h : InStep x.1) : InStep y.1 := by
  obtain ⟨ret, pr', s', heq, hin, -⟩ := (sbrk_iff (k := k) h x.2).mpr hfits
  rw [sbrkStep, heq] at hstep
  cases hstep
  exact hin

/-- A call of `sys_sbrk` on a process in step does what it should exactly if `Fits`. So a process
stays in step through every sequence of such calls, and a `fork()` after it does not panic in
`copyuvm`. -/
theorem sbrk_in_step {σ : Type} (k : Kmem σ) : (∀ pr n s, InStep pr → (SbrkSpec k pr n s ↔ Fits pr n)) ∧
    ∀ ns x y, InStep x.1 → run (sbrkStep k) x ns = some y →
      Always (sbrkStep k) (fun x n => Fits x.1 n) x ns →
      InStep y.1 ∧ ∀ s, ∃ z, copyuvm k y.1.pgdir y.1.sz s = .ok z := by
  refine ⟨fun pr n s h => sbrk_iff h s, fun ns x y h hrun hfits => ?_⟩
  have hy : InStep y.1 := run_invariant_always (P := fun x : Proc × σ => InStep x.1)
    (fun _ _ _ hstep hfit hin => inStep_step hstep hfit hin) hrun hfits h
  refine ⟨hy, fun s => copyuvm_ok (fun q hq => ?_) s⟩
  exact (hy.mapped q (Nat.lt_of_lt_of_le hq (pages_le hy.size))).mpr hq

def freelist : Kmem (List Frame) where
  kalloc
    | [] => (none, [])
    | r :: rest => (some r, rest)
  kfree v s := v :: s

/-- A process of one page, in frames that are not on the free list. -/
def onePage : Proc where
  sz := PGSIZE
  pgdir :=
    { frame := ⟨1, by decide⟩
      pde := upd (fun _ => none) 0 (some
        { frame := ⟨2, by decide⟩
          pte := upd (fun _ => none) 0 (some ⟨⟨3, by decide⟩, true⟩) }) }

theorem onePage_inStep : InStep onePage := by
  refine ⟨by decide, fun p _ => ?_⟩
  have hpte : onePage.pgdir.pte p = if p = 0 then some ⟨⟨3, by decide⟩, true⟩ else none := by
    simp only [onePage, Pgdir.pte, upd_apply]
    by_cases hp : p / NPTENTRIES = 0
    · rw [if_pos hp]
      simp only [Option.bind_some, upd_apply]
      by_cases h0 : p = 0
      · rw [if_pos h0, if_pos (by rw [h0]; rfl)]
      · rw [if_neg h0, if_neg (by simp only [NPTENTRIES] at *; omega)]
    · rw [if_neg hp, if_neg (by rintro rfl; exact hp rfl)]
      rfl
  have hpages : pages onePage.sz = 1 := by decide
  rw [hpte, hpages]
  split
  · simp [*]
  · rename_i h0
    exact iff_of_false (fun h => h rfl) (by omega)

/-- What a call leaves for a `fork()` with 80 free frames: its value, the size, the first page's
entry and the panic, if there is one. -/
def afterSbrk (n : Int32) : Option (Int × Nat × Option Pte × Option Panic) :=
  (sysSbrk freelist onePage n []).toOption.map fun x =>
    (x.1, x.2.1.sz, x.2.1.pgdir.pte 0,
      match copyuvm freelist x.2.1.pgdir x.2.1.sz ((List.range 80).map fun i => ⟨i + 10, by omega⟩) with
      | .ok _ => none
      | .error e => some e)

/-- `sbrk(-sz)` returns -1 with the size as it was and no page mapped, and the next `fork()`
panics. `sbrk(-sz - 1)` succeeds and changes nothing. -/
theorem sbrk_all_unmapped : InStep onePage ∧
    afterSbrk (-4096) = some (-1, 4096, none, some .pageNotPresent) ∧
    afterSbrk (-4097) = some (4096, 4096, some ⟨⟨3, by decide⟩, true⟩, none) :=
  ⟨onePage_inStep, by decide +kernel, by decide +kernel⟩

/-- A process of one page grows by a page, in vain since there is no memory, and shrinks. -/
theorem sbrk_in_step_page : ∃ x, run (sbrkStep freelist) (onePage, []) [4096, -4000] = some x ∧
    x.1.sz = 96 ∧ InStep x.1 := by
  obtain ⟨x, hx, hsz⟩ : ∃ x, run (sbrkStep freelist) (onePage, []) [4096, -4000] = some x ∧
      x.1.sz = 96 := ⟨_, rfl, rfl⟩
  refine ⟨x, hx, hsz, ((sbrk_in_step freelist).2 _ _ _ onePage_inStep hx ?_).1⟩
  decide

end Xv6.Vm
