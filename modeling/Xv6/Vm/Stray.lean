import Mathlib.Algebra.Order.BigOperators.Group.Finset
import Xv6.Vm.Exec

/-!
# A stray write

With enough memory `boot`, `sbrk` and the steps of `exec` succeed. A process that has grown
can then call `exec` with an argument that moves the stack pointer to the last page below the
devices. There is no page table there, and `copyout` writes the first page of the argument to
the frame that the word at address 0 names. Let this be the last page table of the process:
then all entries of the table are for one frame.
-/

namespace Xv6.Vm

open Table Scan

variable {lo hi : Nat} {s t : Sys} {d d' : Pgdir} {g g' : Free} {p : Nat}

/-! ## Enough memory -/

theorem kalloc_pos (h : 0 < g.list.length) :
    ∃ f g', (kmem lo hi).kalloc g = (some f, g') ∧ g'.list.length + 1 = g.list.length := by
  cases hl : g.list with
  | nil =>
    rw [hl] at h
    exact absurd h (Nat.lt_irrefl 0)
  | cons f l => exact ⟨f, { g with list := l }, by simp only [kmem, hl], rfl⟩

theorem walkpgdir_pos (d : Pgdir) (p : Nat) (h : 0 < g.list.length) :
    ∃ d' g', walkpgdir (kmem lo hi) d p g = (some d', g') ∧ g.list.length ≤ g'.list.length + 1 := by
  unfold walkpgdir
  split
  · exact ⟨d, g, rfl, Nat.le_succ _⟩
  · obtain ⟨f, g', hk, hlen⟩ := @kalloc_pos lo hi g h
    rw [hk]
    exact ⟨_, g', rfl, hlen.ge⟩

theorem mappages_pos (f : Frame) (user : Bool) (hp : d.pte p = none) (h : 0 < g.list.length) :
    ∃ d' g', mappages (kmem lo hi) d p f user g = .ok (true, d', g') ∧
      g.list.length ≤ g'.list.length + 1 := by
  obtain ⟨d', g', hw, hlen⟩ := @walkpgdir_pos lo hi g d p h
  have hnone : (d'.pte p).isSome = false := by
    rw [(walkpgdir_some hw).2.2, hp]
    rfl
  refine ⟨d'.setPte p (some ⟨f, user⟩), g', ?_, hlen⟩
  rw [mappages, hw]
  dsimp only
  rw [hnone]
  rfl

theorem mapKernel_pos : ∀ (is : List Nat) (d : Pgdir) (g : Free), is.length ≤ g.list.length →
      ∃ d' g', mapKernel (kmem lo hi) is d g = .ok (some d', g') ∧
        g.list.length ≤ g'.list.length + is.length
  | [], d, g, _ => ⟨d, g, rfl, Nat.le_refl _⟩
  | i :: is, d, g, h => by
    rw [List.length_cons] at h ⊢
    obtain ⟨d₁, g₁, hw, hlen⟩ := @walkpgdir_pos lo hi g d (i * NPTENTRIES) (by omega)
    obtain ⟨d', g', hm, hlen'⟩ := mapKernel_pos is d₁ g₁ (by omega)
    refine ⟨d', g', ?_, by omega⟩
    rw [mapKernel, hw]
    exact hm

theorem setupkvm_pos (h : 65 ≤ g.list.length) :
    ∃ d g', setupkvm (kmem lo hi) g = .ok (some d, g') ∧ g.list.length ≤ g'.list.length + 65 := by
  obtain ⟨f, g₁, hk, hlen⟩ := @kalloc_pos lo hi g (by omega)
  have htab : kernTables.length = 64 := by decide
  obtain ⟨d, g', hm, hlen'⟩ := @mapKernel_pos lo hi kernTables ⟨f, fun _ => none⟩ g₁ (by omega)
  refine ⟨d, g', ?_, by omega⟩
  rw [setupkvm, hk]
  exact hm

theorem allocLoop_pos : ∀ (m p : Nat) (d : Pgdir) (g : Free), d.Below p → 2 * m ≤ g.list.length →
      ∃ d' g', allocLoop (kmem lo hi) m p d g = .ok (.done, d', g') ∧ g.list.length ≤ g'.list.length + 2 * m
  | 0, p, d, g, _, _ => ⟨d, g, rfl, Nat.le_refl _⟩
  | m + 1, p, d, g, hb, h => by
    obtain ⟨f, g₁, hk, hlen⟩ := @kalloc_pos lo hi g (by omega)
    obtain ⟨d₁, g₂, hm, hlen₁⟩ :=
      @mappages_pos lo hi d g₁ p f true (hb p (Nat.le_refl p)) (by omega)
    obtain ⟨ok, d₁', g₂', hspec, hpte⟩ :=
      mappages_spec (k := kmem lo hi) f true (hb p (Nat.le_refl p)) g₁
    rw [hm] at hspec
    cases hspec
    have hb₁ : d₁.Below (p + 1) := by
      intro q hq
      rw [hpte, if_neg (by omega)]
      exact hb q (by omega)
    obtain ⟨d', g', hrest, hlen₂⟩ := allocLoop_pos m (p + 1) d₁ g₂ hb₁ (by omega)
    refine ⟨d', g', ?_, by omega⟩
    rw [allocLoop, hk]
    dsimp only
    rw [hm]
    exact hrest

theorem allocuvm_pos {oldsz newsz : Nat} (hb : d.Below (pages oldsz)) (hlt : oldsz < newsz)
    (hk : newsz < KERNBASE) (h : 2 * (pages newsz - pages oldsz) ≤ g.list.length) :
    ∃ d' g', allocuvm (kmem lo hi) d oldsz newsz g = .ok (newsz, d', g') ∧
      g.list.length ≤ g'.list.length + 2 * (pages newsz - pages oldsz) := by
  obtain ⟨d', g', hl, hlen⟩ := @allocLoop_pos lo hi _ _ d g hb h
  refine ⟨d', g', ?_, hlen⟩
  rw [allocuvm, if_neg (by omega), if_neg (by omega), hl]

theorem length_freerange : ∀ (n a : Nat) (g : Free), 0 < a →
      (freerange lo hi a n g).list.length = g.list.length + n
  | 0, _, _, _ => rfl
  | n + 1, a, g, ha => by
    rw [freerange, dif_pos (Nat.pos_iff_ne_zero.mp ha), length_freerange n (a + 1) _ (Nat.succ_pos a)]
    simp only [kmem, List.length_cons]
    omega

/-- The first process after `boot`. -/
structure Booted (s : Sys) (d : Pgdir) : Prop where
  alive : (s.slot 0).state = .alive
  mem : (s.slot 0).mem = some ⟨PGSIZE, d⟩

theorem boot_pos {mid : Nat} (hlo : 0 < lo) (hmid : lo + 65 ≤ mid) (hhi : mid + 68 ≤ hi) :
    ∃ s d, boot lo hi mid = some s ∧ Booted s d ∧ hi - lo ≤ s.free.list.length + 133 := by
  have hlen₀ := @length_freerange lo hi (mid - lo) lo ⟨[], false⟩ hlo
  rw [List.length_nil] at hlen₀
  obtain ⟨kpgdir, g₁, hk, hlen₁⟩ := @setupkvm_pos lo hi _ (show 65 ≤ _ by rw [hlen₀]; omega)
  have hlen₂ := @length_freerange lo hi (hi - mid) mid g₁ (by omega)
  obtain ⟨kstack, g₂, hstack, hlen₃⟩ := @kalloc_pos lo hi _ (show 0 < _ by rw [hlen₂]; omega)
  obtain ⟨d, g₃, hd, hlen₄⟩ := @setupkvm_pos lo hi g₂ (by omega)
  obtain ⟨mem, g₄, hmem, hlen₅⟩ := @kalloc_pos lo hi g₃ (by omega)
  have hnone := (setupkvm_building hd).below 0 (Nat.le_refl 0)
  obtain ⟨d', g₅, hmap, hlen₆⟩ := @mappages_pos lo hi d g₄ 0 mem true hnone (by omega)
  rw [boot, hk]
  dsimp only
  rw [hstack]
  dsimp only
  rw [hd]
  dsimp only
  rw [hmem]
  dsimp only
  rw [hmap]
  refine ⟨_, d', rfl, ⟨rfl, rfl⟩, ?_⟩
  dsimp only
  omega

/-! ## Growing -/

/-- The frames of a machine: the first one after the kernel, the end of those for `kinit1` and
`PHYSTOP`. -/
abbrev LO : Nat := 300
abbrev MID : Nat := 1024
abbrev HI : Nat := 57344

/-- 32 MB and three pages. -/
def growth : Int32 := 33566720

/-- The first process when it has grown. Its last page table has the index 8. -/
structure Grown (s : Sys) (d : Pgdir) (tab : Pgtab) : Prop where
  alive : (s.slot 0).state = .alive
  mem : (s.slot 0).mem = some ⟨33570816, d⟩
  table : d.pde 8 = some tab
  room : 100 ≤ s.free.list.length

theorem sbrk_grows (h : Booted s d) (hb : d.Below (pages PGSIZE)) (hlen : 20000 ≤ s.free.list.length) :
    ∃ t d' tab, sbrk LO HI 0 growth s = .ok t ∧ Grown t d' tab := by
  have hpages : pages 33570816 - pages PGSIZE = 8195 := by decide
  obtain ⟨d', g, ha, hlen'⟩ := @allocuvm_pos LO HI d s.free PGSIZE 33570816 hb (by decide) (by decide)
    (by omega)
  obtain ⟨ret, d₁, g₁, heq, hor⟩ := @allocuvm_grow LO HI d PGSIZE 33570816 hb (by decide) s.free
  rw [ha] at heq
  cases heq
  obtain ⟨-, -, -, -, -, -, hmapped⟩ := hor.resolve_left fun h0 => absurd h0.1 (by decide)
  obtain ⟨x, hx⟩ := Option.ne_none_iff_exists'.mp (hmapped 8192 (by decide) (by decide))
  obtain ⟨tab, htab⟩ := Option.ne_none_iff_exists'.mp (pde_of_pte hx)
  have hnew : newSize PGSIZE growth = 33570816 := by decide
  have hpos : 0 < growth := by decide
  rw [sbrk, h.mem]
  dsimp only
  rw [sysSbrk, growproc, if_pos hpos]
  dsimp only
  rw [hnew, ha]
  refine ⟨_, d', tab, rfl, ⟨?_, ?_, htab, ?_⟩⟩
  · rw [slot_setSlot]
    exact h.alive
  · rw [slot_setSlot]
    rfl
  · change 100 ≤ g.list.length
    omega

theorem grown_run :
    ∃ s t d tab, boot LO HI MID = some s ∧ Run LO HI s [⟨0, .sbrk growth⟩] t ∧ Grown t d tab := by
  obtain ⟨s, d, hboot, hbooted, hlen⟩ := @boot_pos LO HI MID (by decide) (by decide) (by decide)
  have hinv := boot_inv (by decide) (by decide) (by decide) hboot
  obtain ⟨t, d', tab, hsbrk, hgrown⟩ := sbrk_grows hbooted (hinv.space 0 _ hbooted.mem).below
    (by simp only [LO, HI] at hlen; omega)
  exact ⟨s, t, d', tab, hboot, Run.snoc Run.nil ⟨hbooted.alive, trivial, hsbrk⟩, hgrown⟩

/-- A word of the argument: an entry for frame 4113, with `PTE_P`, `PTE_W` and `PTE_U`. It has no
byte that is 0. -/
def entryWord : Nat := 0x01011007

def longArg : Arg := ⟨33566719, fun _ => entryWord⟩

/-- The word at address 0 is an entry for frame `f`. -/
def longExec (f : Frame) : ExecCall := ⟨true, [], [longArg], f.val * PGSIZE + 7⟩

/-- The stray write of the call. -/
def strayOf (f : Frame) : Stray := ⟨f.val, 0, 1024, 0, fun _ => entryWord⟩

theorem uva2ka_stray (f : Frame) (hnone : d.pde 1015 = none) :
    uva2ka d (0xFDFFF000 / PGSIZE) (f.val * PGSIZE + 7) = .stray f.val := by
  have hpage : 0xFDFFF000 / PGSIZE / NPTENTRIES = 1015 := by decide
  have hbits : (f.val * PGSIZE + 7) % 2 = 1 ∧ (f.val * PGSIZE + 7) / 4 % 2 = 1 := by
    simp only [PGSIZE]
    omega
  have hframe : (f.val * PGSIZE + 7) / PGSIZE = f.val := by
    simp only [PGSIZE]
    omega
  rw [uva2ka, hpage, hnone]
  dsimp only
  rw [if_pos hbits, hframe]

theorem copyout_stray {sz : Nat} (f : Frame) (h : Building d sz) (hnone : d.pde 1015 = none) (m : Nat) :
    copyout d (f.val * PGSIZE + 7) longArg.word (m + 2) 0xFDFFF000 33566720 0 = (false, [strayOf f]) := by
  have hn : min (PGSIZE - 0xFDFFF000 % PGSIZE) 33566720 = 4096 := by decide
  have hva : (0xFDFFF000 / PGSIZE + 1) * PGSIZE % 2 ^ 32 = 0xFE000000 := by decide
  rw [copyout, if_neg (by decide), uva2ka_stray f hnone]
  dsimp only
  rw [hn, hva, copyout_devices h m _ _ (Nat.le_refl _) (by decide) (by decide)]
  rfl

theorem pushStack_stray (f : Frame) (h : Building d (2 * PGSIZE)) (hnone : d.pde 1015 = none) :
    pushStack d (longExec f) (2 * PGSIZE) = (false, [strayOf f]) := by
  have hargs : pushArgs d (f.val * PGSIZE + 7) [longArg] 0 (2 * PGSIZE) =
      (false, 0xFDFFF000, [strayOf f]) := by
    have hsp : pushed (2 * PGSIZE) (longArg.len + 1) = 0xFDFFF000 := by decide
    have hfuel : longArg.len / PGSIZE + 2 = 8194 + 2 := by decide
    have hcopy := copyout_stray f h hnone 8194
    rw [pushArgs, if_neg (by decide)]
    dsimp only
    rw [hsp, hfuel, show longArg.len + 1 = 33566720 from rfl, hcopy]
    rfl
  have hargs' : pushArgs d (longExec f).word0 (longExec f).args 0 (2 * PGSIZE) =
      (false, 0xFDFFF000, [strayOf f]) := hargs
  rw [pushStack, hargs']
  rfl

theorem image_stray (f : Frame) (hroom : 4 ≤ g.list.length) (h : Building d 0) (hnone : d.pde 1015 = none) :
    ∃ d' g', image LO HI (longExec f) d g = .ok (none, d', g', [strayOf f]) := by
  have hpages : pages (2 * PGSIZE) - pages 0 = 2 := by decide
  obtain ⟨d₁, g₁, ha, -⟩ := @allocuvm_pos LO HI d g 0 (2 * PGSIZE) h.below (by decide) (by decide)
    (by omega)
  have hext : Extends (fun i => i = 0) d d₁ := by
    refine extends_allocuvm (fun q _ hq => ?_) ha
    have h2 : pages (2 * PGSIZE) = 2 := by decide
    simp only [NPTENTRIES]
    omega
  obtain ⟨ret, d₂, g₂, heq, hor⟩ := @allocuvm_grow LO HI d 0 (2 * PGSIZE) h.below h.size g
  rw [ha] at heq
  cases heq
  obtain ⟨-, -, -, hlt, hb, -, hmapped⟩ := hor.resolve_left fun h0 => absurd h0.1 (by decide)
  have hbuild : Building d₁ (2 * PGSIZE) := by
    refine ⟨hb, hlt, fun q hq => ?_, fun i h₁ h₂ => (hext i).1 (h.devices i h₁ h₂)⟩
    obtain ⟨x, hx⟩ := Option.ne_none_iff_exists'.mp (hmapped q (Nat.zero_le q) hq)
    exact pde_of_pte hx
  have hpde : d₁.pde (0 / NPTENTRIES) ≠ none := hbuild.full 0 (by decide)
  obtain ⟨tab, htab⟩ := Option.ne_none_iff_exists'.mp hpde
  have hnone' : (d₁.setPte 0 ((d₁.pte 0).map fun x => { x with user := false })).pde 1015 = none :=
    ((extends_setPte (fun i => i = 0) d₁ 0 _) 1015).2 ((hext 1015).2 hnone (by decide)) (by decide)
  have hpush := pushStack_stray f (hbuild.clearpteu hpde) hnone'
  have hload : loadSegs LO HI (longExec f).phdrs 0 d g = .ok (some 0, d, g) := rfl
  have hstack : allocuvm (kmem LO HI) d (pages 0 * PGSIZE) (pages 0 * PGSIZE + 2 * PGSIZE) g =
      .ok (8191 + 1, d₁, g₁) := ha
  have hguard : (8191 + 1) / PGSIZE - 2 = 0 := by decide
  rw [image, hload]
  dsimp only
  rw [hstack]
  dsimp only
  rw [hguard, htab]
  dsimp only
  rw [show 8191 + 1 = 2 * PGSIZE from rfl, hpush]
  exact ⟨_, g₁, rfl⟩

theorem exec_stray {tab : Pgtab} (h : Grown s d tab) : ∃ g, exec LO HI 0 (longExec tab.frame) s =
      .ok (Stray.onSys { s with free := g } (strayOf tab.frame)) := by
  have hroom := h.room
  obtain ⟨d₁, g₁, hset, hlen⟩ := @setupkvm_pos LO HI s.free (by omega)
  have hroom₁ : 4 ≤ g₁.list.length := by omega
  have hnone : d₁.pde 1015 = none := (setupkvm_tables hset).2 1015 (by decide)
  obtain ⟨d₂, g₂, himg⟩ := image_stray tab.frame hroom₁ (setupkvm_building hset) hnone
  obtain ⟨g₃, hfree⟩ := freevm_ok (k := kmem LO HI) d₂ g₂
  have hopens : (longExec tab.frame).opens = true := rfl
  refine ⟨g₃, ?_⟩
  rw [exec, hopens, h.mem]
  dsimp only
  rw [hset]
  dsimp only
  rw [himg]
  dsimp only
  rw [hfree]
  rfl

/-! ## Two owners -/

def shared : Frame := ⟨4113, by decide⟩

theorem two_le_tabCount (tab : Pgtab) : 2 ≤ tabCount (some ((strayOf tab.frame).onTable tab)) shared := by
  have hpte : ∀ j ∈ Finset.range NPTENTRIES,
      pteCount (((strayOf tab.frame).onTable tab).pte j) shared = 1 := by
    intro j hj
    have hj' : 0 ≤ j ∧ j < 0 + 1024 := by
      rw [Finset.mem_range] at hj
      simp only [NPTENTRIES] at hj
      omega
    have hdecode : decode entryWord = some ⟨shared, true⟩ := by decide
    have hword : ((strayOf tab.frame).onTable tab).pte j = decode entryWord := by
      rw [Stray.onTable, if_pos (show tab.frame.val = (strayOf tab.frame).frame from rfl)]
      exact if_pos hj'
    rw [hword, hdecode, pteCount_some]
    exact if_pos rfl
  rw [tabCount_some, Finset.sum_congr rfl hpte, ← Finset.card_eq_sum_ones, Finset.card_range]
  simp only [NPTENTRIES]
  omega

theorem two_le_count {tab : Pgtab} (h : Grown s d tab) (g : Free) :
    2 ≤ (Stray.onSys { s with free := g } (strayOf tab.frame)).count shared := by
  have htab : ((strayOf tab.frame).onDir d).pde 8 = some ((strayOf tab.frame).onTable tab) := by
    rw [Stray.onDir]
    dsimp only
    rw [h.table]
    rfl
  have hmem : ((Stray.onSys { s with free := g } (strayOf tab.frame)).slot 0).mem =
      some ⟨33570816, (strayOf tab.frame).onDir d⟩ := by
    rw [Stray.onSys]
    dsimp only
    rw [h.mem]
    rfl
  have htwo := two_le_tabCount tab
  rw [← htab] at htwo
  have hdir : tabCount (((strayOf tab.frame).onDir d).pde 8) shared ≤
      ∑ i ∈ Finset.range NPTENTRIES, tabCount (((strayOf tab.frame).onDir d).pde i) shared :=
    Finset.single_le_sum (f := fun i => tabCount (((strayOf tab.frame).onDir d).pde i) shared)
      (fun _ _ => Nat.zero_le _) (Finset.mem_range.mpr (by decide))
  rw [count_eq _ 0, slotCount, hmem, memCount_some, Pgdir.count]
  dsimp only
  omega

end Xv6.Vm
