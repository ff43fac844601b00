import Xv6.Vm.Ownership

/-!
# `exec` and the pages

While `exec` builds an address space, the pages below its size are mapped and no others
(`Building`), so that `copyout` finds the page tables of the stack. An argument of at most
32 MB moves the stack pointer to the stack or, around zero, to where the kernel maps devices:
there are page tables at both, and no stray write.

A longer argument moves it to where there is no page table. `Vm.Stray` follows such a call:
the words of the argument become the entries of a page table.
-/

namespace Xv6.Vm

open Table Scan

variable {lo hi : Nat} {s t : Sys} {d d' : Pgdir} {g g' : Free} {c : Fin NPROC} {p : Nat}
  {e : Frame → Nat} {S : Nat → Prop}

/-! ## Page tables stay -/

/-- The page tables of `d` are in `d'`, and only those in `S` are new. -/
def Extends (S : Nat → Prop) (d d' : Pgdir) : Prop :=
  ∀ i, (d.pde i ≠ none → d'.pde i ≠ none) ∧ (d.pde i = none → ¬ S i → d'.pde i = none)

theorem Extends.refl (S : Nat → Prop) (d : Pgdir) : Extends S d d := fun _ => ⟨id, fun h _ => h⟩

theorem Extends.trans {d₁ d₂ d₃ : Pgdir} (h₁ : Extends S d₁ d₂) (h₂ : Extends S d₂ d₃) : Extends S d₁ d₃ :=
  fun i => ⟨fun h => (h₂ i).1 ((h₁ i).1 h), fun h hS => (h₂ i).2 ((h₁ i).2 h hS) hS⟩

theorem extends_setPte (S : Nat → Prop) (d : Pgdir) (p : Nat) (x : Option Pte) :
    Extends S d (d.setPte p x) := by
  intro i
  unfold Pgdir.setPte
  dsimp only
  by_cases hi' : i = p / NPTENTRIES
  · rw [hi', upd_same]
    exact ⟨fun h => by simpa using h, fun h _ => by rw [h]; rfl⟩
  · rw [upd_ne _ _ hi']
    exact ⟨id, fun h _ => h⟩

theorem extends_walkpgdir {σ : Type} {k : Kmem σ} {u u' : σ} (hS : S (p / NPTENTRIES))
    (hw : walkpgdir k d p u = (some d', u')) : Extends S d d' := by
  unfold walkpgdir at hw
  split at hw
  · cases hw
    exact .refl S d
  · rename_i hnone
    split at hw
    · cases hw
    · cases hw
      intro i
      dsimp only
      by_cases hi' : i = p / NPTENTRIES
      · rw [hi', upd_same]
        exact ⟨fun _ => by rintro ⟨⟩, fun _ hc => absurd hS hc⟩
      · rw [upd_ne _ _ hi']
        exact ⟨id, fun h _ => h⟩

theorem extends_mappages {σ : Type} {k : Kmem σ} {u u' : σ} {f : Frame} {user b : Bool}
    (hS : S (p / NPTENTRIES)) (hm : mappages k d p f user u = .ok (b, d', u')) : Extends S d d' := by
  unfold mappages at hm
  split at hm
  · cases hm
    exact .refl S d
  · rename_i d₁ u₁ hw
    split at hm
    · cases hm
    · cases hm
      exact (extends_walkpgdir hS hw).trans (extends_setPte S _ _ _)

theorem extends_deallocLoop {σ : Type} {k : Kmem σ} (S : Nat → Prop) :
    ∀ (m p stop : Nat) (d : Pgdir) (u : σ) {d' : Pgdir} {u' : σ},
      deallocLoop k m p stop d u = .ok (d', u') → Extends S d d'
  | 0, p, stop, d, u, d', u', h => by
    cases h
    exact .refl S d
  | m + 1, p, stop, d, u, d', u', h => by
    rw [deallocLoop] at h
    split at h
    · split at h
      · exact extends_deallocLoop S m _ _ _ _ h
      · split at h
        · exact extends_deallocLoop S m _ _ _ _ h
        · split at h
          · cases h
          · exact (extends_setPte S d p none).trans (extends_deallocLoop S m _ _ _ _ h)
    · cases h
      exact .refl S d

theorem extends_deallocuvm {σ : Type} {k : Kmem σ} {u u' : σ} (S : Nat → Prop) {oldsz newsz ret : Nat}
    (h : deallocuvm k d oldsz newsz u = .ok (ret, d', u')) : Extends S d d' := by
  unfold deallocuvm at h
  split at h
  · cases h
    exact .refl S d
  · cases hl : deallocLoop k (pages oldsz - pages newsz) (pages newsz) (pages oldsz) d u with
    | error x =>
      rw [hl] at h
      cases h
    | ok x =>
      rw [hl] at h
      cases h
      exact extends_deallocLoop S _ _ _ _ _ hl

theorem extends_allocLoop {σ : Type} {k : Kmem σ} :
    ∀ (m p : Nat) (d : Pgdir) (u : σ) {ret : AllocEnd} {d' : Pgdir} {u' : σ},
      (∀ q, p ≤ q → q < p + m → S (q / NPTENTRIES)) →
      allocLoop k m p d u = .ok (ret, d', u') → Extends S d d'
  | 0, p, d, u, ret, d', u', _, h => by
    cases h
    exact .refl S d
  | m + 1, p, d, u, ret, d', u', hS, h => by
    rw [allocLoop] at h
    split at h
    · cases h
      exact .refl S d
    · split at h
      · cases h
      · rename_i hm
        cases h
        exact extends_mappages (hS p (Nat.le_refl p) (by omega)) hm
      · rename_i d₁ u₁ hm
        refine (extends_mappages (hS p (Nat.le_refl p) (by omega)) hm).trans
          (extends_allocLoop m (p + 1) d₁ u₁ (fun q h₁ h₂ => hS q (by omega) (by omega)) h)

theorem extends_allocuvm {σ : Type} {k : Kmem σ} {u u' : σ} {oldsz newsz ret : Nat}
    (hS : ∀ q, pages oldsz ≤ q → q < pages newsz → S (q / NPTENTRIES))
    (h : allocuvm k d oldsz newsz u = .ok (ret, d', u')) : Extends S d d' := by
  unfold allocuvm at h
  split at h
  · cases h
    exact .refl S d
  · split at h
    · cases h
      exact .refl S d
    · have hS' : ∀ q, pages oldsz ≤ q → q < pages oldsz + (pages newsz - pages oldsz) →
          S (q / NPTENTRIES) := fun q h₁ h₂ => hS q h₁ (by omega)
      split at h
      · cases h
      · rename_i d₁ u₁ hl
        cases h
        exact extends_allocLoop _ _ d u hS' hl
      · rename_i d₁ u₁ hl
        have hloop := extends_allocLoop _ _ d u hS' hl
        cases hd : deallocuvm k d₁ newsz oldsz u₁ with
        | error x =>
          rw [hd] at h
          cases h
        | ok x =>
          rw [hd] at h
          cases h
          exact hloop.trans (extends_deallocuvm S hd)
      · rename_i mem d₁ u₁ hl
        have hloop := extends_allocLoop _ _ d u hS' hl
        cases hd : deallocuvm k d₁ newsz oldsz u₁ with
        | error x =>
          rw [hd] at h
          cases h
        | ok x =>
          rw [hd] at h
          cases h
          exact hloop.trans (extends_deallocuvm S hd)

theorem mapKernel_tables {σ : Type} {k : Kmem σ} :
    ∀ (is : List Nat) (d : Pgdir) (u : σ) {d' : Pgdir} {u' : σ}, (∀ i ∈ is, S i) →
      mapKernel k is d u = .ok (some d', u') → Extends S d d' ∧ ∀ i ∈ is, d'.pde i ≠ none
  | [], d, u, d', u', _, h => by
    cases h
    exact ⟨.refl S d, fun i hi' => absurd hi' List.not_mem_nil⟩
  | i :: is, d, u, d', u', hS, h => by
    rw [mapKernel] at h
    have hdiv : i * NPTENTRIES / NPTENTRIES = i := Nat.mul_div_cancel i (by decide)
    split at h
    · rename_i d₁ u₁ hw
      have hext : Extends S d d₁ :=
        extends_walkpgdir (by rw [hdiv]; exact hS i List.mem_cons_self) hw
      obtain ⟨hrest, htab⟩ :=
        mapKernel_tables is d₁ u₁ (fun j hj => hS j (List.mem_cons_of_mem i hj)) h
      refine ⟨hext.trans hrest, fun j hj => ?_⟩
      rcases List.mem_cons.mp hj with rfl | hj
      · have := (walkpgdir_some hw).1
        rw [hdiv] at this
        exact (hrest j).1 this
      · exact htab j hj
    · rename_i u₁ hw
      cases hf : freevm k d u₁ with
      | error x =>
        rw [hf] at h
        cases h
      | ok u₂ =>
        rw [hf] at h
        cases h

theorem setupkvm_tables {σ : Type} {k : Kmem σ} {u u' : σ} (h : setupkvm k u = .ok (some d, u')) :
    (∀ i ∈ kernTables, d.pde i ≠ none) ∧ ∀ i, i ∉ kernTables → d.pde i = none := by
  unfold setupkvm at h
  split at h
  · cases h
  · obtain ⟨hext, htab⟩ := mapKernel_tables (S := fun i => i ∈ kernTables) kernTables _ _
      (fun i hi' => hi') h
    exact ⟨htab, fun i hi' => (hext i).2 rfl hi'⟩

/-! ## Building an address space -/

/-- The pages below `sz` are mapped and no others, and the kernel's page tables are there. -/
structure Building (d : Pgdir) (sz : Nat) : Prop where
  below : d.Below (pages sz)
  size : sz < KERNBASE
  full : ∀ q, q < pages sz → d.pde (q / NPTENTRIES) ≠ none
  devices : ∀ i, 1016 ≤ i → i < NPTENTRIES → d.pde i ≠ none

variable {sz : Nat}

theorem Building.belowKernel (h : Building d sz) : d.Below NUPAGE :=
  h.below.mono (pages_le_nupage (Nat.le_of_lt h.size))

theorem setupkvm_building {u u' : Free} (h : setupkvm (kmem lo hi) u = .ok (some d, u')) :
    Building d 0 := by
  obtain ⟨o, u₁, heq, hnone⟩ := setupkvm_ok (k := kmem lo hi) u
  rw [heq] at h
  cases h
  refine ⟨fun q _ => hnone d rfl q, by decide, fun q hq => absurd hq (by decide +revert), ?_⟩
  intro i h₁ h₂
  refine (setupkvm_tables heq).1 i ?_
  rw [kernTables, List.mem_append, List.mem_range'_1, List.mem_range'_1]
  simp only [NPTENTRIES] at h₂
  omega

theorem Building.alloc {sz : Nat} (h : Building d sz) (hbal : Balance lo hi g fun f => d.count f + e f)
    (newsz : Nat) : ∃ ret d' g', allocuvm (kmem lo hi) d sz newsz g = .ok (ret, d', g') ∧
      Balance lo hi g' (fun f => d'.count f + e f) ∧ d'.Below NUPAGE ∧
      (0 < ret → Building d' ret ∧ (ret = newsz ∨ ret = sz)) := by
  obtain ⟨ret, d', g', heq, hor⟩ := @allocuvm_grow lo hi d sz newsz h.below h.size g
  have hext : Extends (fun _ => True) d d' := extends_allocuvm (fun _ _ _ => trivial) heq
  refine ⟨ret, d', g', heq, allocuvm_balance hbal heq, ?_, fun hret => ?_⟩
  · rcases hor with ⟨-, hb⟩ | ⟨-, -, -, hlt, hb, -⟩
    · exact hb.mono (pages_le_nupage (Nat.le_of_lt h.size))
    · exact hb.mono (pages_le_nupage (Nat.le_of_lt hlt))
  · rcases hor with ⟨h0, -⟩ | ⟨-, hwhich, -, hlt, hb, -, hmapped⟩
    · omega
    · refine ⟨⟨hb, hlt, fun q hq => ?_, fun i h₁ h₂ => (hext i).1 (h.devices i h₁ h₂)⟩, hwhich⟩
      by_cases hold : q < pages sz
      · exact (hext _).1 (h.full q hold)
      · obtain ⟨x, hx⟩ := Option.ne_none_iff_exists'.mp (hmapped q (Nat.not_lt.mp hold) hq)
        exact pde_of_pte hx

theorem loadSegs_good :
    ∀ (phs : List (Option (Phdr × Bool))) (sz : Nat) (d : Pgdir) (g : Free), Building d sz →
      Balance lo hi g (fun f => d.count f + e f) → ∃ o d' g', loadSegs lo hi phs sz d g = .ok (o, d', g') ∧
        Balance lo hi g' (fun f => d'.count f + e f) ∧ d'.Below NUPAGE ∧
        ∀ sz', o = some sz' → Building d' sz'
  | [], sz, d, g, h, hbal => ⟨some sz, d, g, rfl, hbal, h.belowKernel, by rintro sz' ⟨⟩; exact h⟩
  | none :: _, sz, d, g, h, hbal => ⟨none, d, g, rfl, hbal, h.belowKernel, by rintro sz' ⟨⟩⟩
  | some (ph, loads) :: phs, sz, d, g, h, hbal => by
    have hbad : ∃ o d' g', (Except.ok (none, d, g) : Except Panic (Option Nat × Pgdir × Free)) =
        .ok (o, d', g') ∧ Balance lo hi g' (fun f => d'.count f + e f) ∧ d'.Below NUPAGE ∧
        ∀ sz', o = some sz' → Building d' sz' :=
      ⟨none, d, g, rfl, hbal, h.belowKernel, by rintro sz' ⟨⟩⟩
    rw [loadSegs]
    split
    · split
      · exact hbad
      · split
        · exact hbad
        · obtain ⟨ret, d₁, g₁, heq, hbal₁, hb₁, hbuild⟩ :=
            h.alloc hbal ((ph.vaddr + ph.memsz) % 2 ^ 32)
          rw [heq]
          cases ret with
          | zero => exact ⟨none, d₁, g₁, rfl, hbal₁, hb₁, by rintro sz' ⟨⟩⟩
          | succ sz₁ =>
            dsimp only
            split
            · exact ⟨none, d₁, g₁, rfl, hbal₁, hb₁, by rintro sz' ⟨⟩⟩
            · split
              · exact loadSegs_good phs (sz₁ + 1) d₁ g₁ (hbuild (Nat.succ_pos _)).1 hbal₁
              · exact ⟨none, d₁, g₁, rfl, hbal₁, hb₁, by rintro sz' ⟨⟩⟩
    · exact loadSegs_good phs sz d g h hbal

/-! ## The stack -/

theorem copyout_user {sz w0 : Nat} {word : Nat → Nat} (h : Building d sz) :
    ∀ (m va len done : Nat), len = 0 ∨ va + len ≤ sz → (copyout d w0 word m va len done).2 = []
  | 0, _, _, _, _ => rfl
  | m + 1, va, len, done, hle => by
    rw [copyout]
    split
    · rfl
    · rename_i hlen
      have hle' : va + len ≤ sz := hle.resolve_left hlen
      have hpage : va / PGSIZE < pages sz := by
        simp only [pages, PGSIZE] at *
        omega
      have hsz := h.size
      have hnext : len - min (PGSIZE - va % PGSIZE) len = 0 ∨
          (va / PGSIZE + 1) * PGSIZE % 2 ^ 32 + (len - min (PGSIZE - va % PGSIZE) len) ≤ sz := by
        simp only [PGSIZE, KERNBASE] at *
        omega
      obtain ⟨t, ht⟩ := Option.ne_none_iff_exists'.mp (h.full _ hpage)
      rw [uva2ka, ht]
      dsimp only
      cases hx : t.pte (va / PGSIZE % NPTENTRIES) with
      | none => rfl
      | some x =>
        dsimp only
        cases hu : x.user with
        | false => rfl
        | true => exact copyout_user h m _ _ _ hnext

theorem copyout_devices {w0 : Nat} {word : Nat → Nat} (h : Building d sz) (m len done : Nat)
    {va : Nat} (h₁ : 0xFE000000 ≤ va) (h₂ : va < 2 ^ 32) (hlen : len ≠ 0) :
    copyout d w0 word (m + 1) va len done = (false, []) := by
  have htab : d.pde (va / PGSIZE / NPTENTRIES) ≠ none := by
    refine h.devices _ ?_ ?_
    · simp only [PGSIZE, NPTENTRIES]
      omega
    · simp only [PGSIZE, NPTENTRIES]
      omega
  obtain ⟨t, ht⟩ := Option.ne_none_iff_exists'.mp htab
  have hnone : t.pte (va / PGSIZE % NPTENTRIES) = none := by
    have := h.belowKernel (va / PGSIZE) (by simp only [NUPAGE, PGSIZE, KERNBASE]; omega)
    rwa [Pgdir.pte, ht, Option.bind_some] at this
  rw [copyout, if_neg hlen, uva2ka, ht]
  dsimp only
  rw [hnone]

theorem pushed_cases {sp len : Nat} (hsp : sp < KERNBASE) (hlen : len ≤ 2 ^ 25) :
    pushed sp len + len ≤ sp ∨ 0xFE000000 ≤ pushed sp len ∧ pushed sp len < 2 ^ 32 := by
  simp only [pushed, KERNBASE] at *
  omega

theorem pushArgs_clean {sz w0 : Nat} (h : Building d sz) :
    ∀ (args : List Arg) (argc sp : Nat), sp ≤ sz → (∀ a ∈ args, a.len + 1 ≤ 2 ^ 25) →
      (pushArgs d w0 args argc sp).2.2 = [] ∧
        ((pushArgs d w0 args argc sp).1 = true → (pushArgs d w0 args argc sp).2.1 ≤ sz ∧
          (argc ≤ MAXARG → argc + args.length ≤ MAXARG))
  | [], argc, sp, hsp, _ => ⟨rfl, fun _ => ⟨hsp, id⟩⟩
  | a :: as, argc, sp, hsp, hshort => by
    rw [pushArgs]
    split
    · exact ⟨rfl, by rintro ⟨⟩⟩
    · rename_i hargc
      have hlen := hshort a List.mem_cons_self
      rcases pushed_cases (Nat.lt_of_le_of_lt hsp h.size) hlen with hle | ⟨h₁, h₂⟩
      · have hclean := @copyout_user d sz w0 a.word h (a.len / PGSIZE + 2) (pushed sp (a.len + 1))
          (a.len + 1) 0 (Or.inr (hle.trans hsp))
        obtain ⟨hrest, hok⟩ := pushArgs_clean h as (argc + 1) (pushed sp (a.len + 1))
          (by omega) fun b hb => hshort b (List.mem_cons_of_mem a hb)
        dsimp only
        split
        · refine ⟨by rw [hclean, hrest]; rfl, fun htrue => ?_⟩
          obtain ⟨hsp', hlen'⟩ := hok htrue
          refine ⟨hsp', fun _ => ?_⟩
          have := hlen' (by omega)
          rw [List.length_cons]
          omega
        · exact ⟨hclean, by rintro ⟨⟩⟩
      · have hfail : copyout d w0 a.word (a.len / PGSIZE + 2) (pushed sp (a.len + 1)) (a.len + 1) 0 =
            (false, []) := copyout_devices h _ _ _ h₁ h₂ (Nat.succ_ne_zero _)
        dsimp only
        rw [hfail]
        exact ⟨rfl, by rintro ⟨⟩⟩

variable {call : ExecCall}

theorem pushStack_clean (h : Building d sz)
    (hshort : ∀ a ∈ call.args, a.len + 1 ≤ 2 ^ 25) : (pushStack d call sz).2 = [] := by
  obtain ⟨hclean, hok⟩ := @pushArgs_clean d sz call.word0 h call.args 0 sz (Nat.le_refl sz) hshort
  unfold pushStack
  dsimp only
  split
  · rename_i htrue
    obtain ⟨hsp, hlen⟩ := hok htrue
    have hargs := hlen (Nat.zero_le _)
    have hbytes : (3 + call.args.length + 1) * 4 ≤ 2 ^ 25 := by
      simp only [MAXARG] at hargs
      omega
    dsimp only
    rw [hclean, List.nil_append]
    rcases pushed_cases (Nat.lt_of_le_of_lt hsp h.size) hbytes with hle | ⟨h₁, h₂⟩
    · exact copyout_user h _ _ _ _ (Or.inr (hle.trans hsp))
    · rw [copyout_devices h _ _ _ h₁ h₂ (by omega)]
  · exact hclean

/-! ## The whole call -/

theorem pages_mul (n : Nat) : pages (n * PGSIZE) = n := by
  simp only [pages, PGSIZE]
  omega

theorem Building.roundUp (h : Building d sz) (hsz : pages sz * PGSIZE < KERNBASE) :
    Building d (pages sz * PGSIZE) :=
  ⟨by rw [pages_mul]; exact h.below, hsz, by rw [pages_mul]; exact h.full, h.devices⟩

theorem Building.clearpteu (h : Building d sz) {guard : Nat} (hpde : d.pde (guard / NPTENTRIES) ≠ none) :
    Building (d.setPte guard ((d.pte guard).map fun x => { x with user := false })) sz := by
  have hext := extends_setPte (fun _ => True) d guard
    ((d.pte guard).map fun x => { x with user := false })
  refine ⟨fun q hq => ?_, h.size, fun q hq => (hext _).1 (h.full q hq),
    fun i h₁ h₂ => (hext i).1 (h.devices i h₁ h₂)⟩
  rw [pte_setPte hpde]
  split
  · rename_i hqg
    rw [← hqg, h.below q hq]
    rfl
  · exact h.below q hq

theorem count_clearpteu {guard : Nat} (hg : guard < NPTENTRIES * NPTENTRIES)
    (hpde : d.pde (guard / NPTENTRIES) ≠ none) (f : Frame) :
    (d.setPte guard ((d.pte guard).map fun x => { x with user := false })).count f = d.count f := by
  have hcount := count_setPte hg hpde ((d.pte guard).map fun x => { x with user := false }) f
  have hsame : pteCount ((d.pte guard).map fun x => { x with user := false }) f =
      pteCount (d.pte guard) f := by
    cases d.pte guard with
    | none => rfl
    | some x => rfl
  omega

theorem image_good (hshort : ∀ a ∈ call.args, a.len + 1 ≤ 2 ^ 25)
    (h : Building d 0) (hbal : Balance lo hi g fun f => d.count f + e f) :
    (∃ o d' g', image lo hi call d g = .ok (o, d', g', []) ∧
      Balance lo hi g' (fun f => d'.count f + e f) ∧ d'.Below NUPAGE ∧
      ∀ sz, o = some sz → Proc.Ok ⟨sz, d'⟩) ∨ image lo hi call d g = .error .clearpteu := by
  obtain ⟨o, d₁, g₁, hload, hbal₁, hb₁, hbuild⟩ := loadSegs_good call.phdrs 0 d g h hbal
  rw [image, hload]
  cases o with
  | none => exact Or.inl ⟨none, d₁, g₁, rfl, hbal₁, hb₁, by rintro sz ⟨⟩⟩
  | some sz =>
    have hb := hbuild sz rfl
    dsimp only
    by_cases hround : pages sz * PGSIZE < KERNBASE
    · obtain ⟨ret, d₂, g₂, hstack, hbal₂, hb₂, hbuild₂⟩ :=
        (hb.roundUp hround).alloc hbal₁ (pages sz * PGSIZE + 2 * PGSIZE)
      rw [hstack]
      cases ret with
      | zero => exact Or.inl ⟨none, d₂, g₂, rfl, hbal₂, hb₂, by rintro sz ⟨⟩⟩
      | succ sz' =>
        obtain ⟨hb', -⟩ := hbuild₂ (Nat.succ_pos _)
        dsimp only
        cases hpde : d₂.pde (((sz' + 1) / PGSIZE - 2) / NPTENTRIES) with
        | none => exact Or.inr rfl
        | some t =>
          have hne : d₂.pde (((sz' + 1) / PGSIZE - 2) / NPTENTRIES) ≠ none := by
            rw [hpde]
            rintro ⟨⟩
          have hguard : (sz' + 1) / PGSIZE - 2 < NPTENTRIES * NPTENTRIES := by
            have := hb'.size
            simp only [PGSIZE, NPTENTRIES, KERNBASE] at *
            omega
          have hclear := hb'.clearpteu hne
          have hcount := fun f => count_clearpteu hguard hne f
          have hstrays := pushStack_clean hclear hshort
          dsimp only
          rw [hstrays]
          generalize d₂.setPte ((sz' + 1) / PGSIZE - 2)
            ((d₂.pte ((sz' + 1) / PGSIZE - 2)).map fun x => { x with user := false }) = d₃
            at hclear hcount ⊢
          refine Or.inl ⟨_, d₃, g₂, rfl, hbal₂.congr fun f => by rw [hcount], hclear.belowKernel,
            fun sz hsz => ?_⟩
          split at hsz
          · cases hsz
            exact ⟨hclear.below, hclear.size⟩
          · cases hsz
    · -- there is no room for the stack
      have hnone : allocuvm (kmem lo hi) d₁ (pages sz * PGSIZE) (pages sz * PGSIZE + 2 * PGSIZE) g₁ =
          .ok (0, d₁, g₁) := by
        rw [allocuvm, if_pos (by omega)]
      rw [hnone]
      exact Or.inl ⟨none, d₁, g₁, rfl, hbal₁, hb₁, by rintro sz ⟨⟩⟩

theorem exec_good (h : Inv lo hi s) (halive : (s.slot c).state ≠ .unused)
    (hshort : ∀ a ∈ call.args, a.len + 1 ≤ 2 ^ 25) : Good lo hi (exec lo hi c call s) := by
  obtain ⟨-, old, hold⟩ := h.there c halive
  rw [exec, hold]
  cases call.opens with
  | false => exact h
  | true =>
    obtain ⟨o, g, hset, -⟩ := setupkvm_ok (k := kmem lo hi) s.free
    have hbal := setupkvm_balance h.balance hset
    dsimp only
    rw [hset]
    cases o with
    | none => exact h.setFree (hbal.congr fun f => by rw [dirCount_none, Nat.zero_add])
    | some d =>
      dsimp only
      rcases image_good hshort (setupkvm_building hset) hbal with
        ⟨o, d', g', himg, hbal', hb', hok⟩ | himg
      · rw [himg]
        cases o with
        | none =>
          obtain ⟨g'', hf⟩ := freevm_ok (k := kmem lo hi) d' g'
          dsimp only
          rw [hf]
          exact h.setFree (freevm_balance hbal' hb' hf)
        | some sz =>
          obtain ⟨g'', hf⟩ := freevm_ok (k := kmem lo hi) old.pgdir g'
          dsimp only
          rw [hf]
          have hbal'' : Balance lo hi g' fun f => old.pgdir.count f +
              (d'.count f + stackCount (s.slot c).kstack f + s.others c f) := by
            refine hbal'.congr fun f => ?_
            rw [count_eq s c, slotCount, hold, memCount_some]
            omega
          refine h.setSlot ⟨?_, fun _ => ⟨(h.there c halive).1, _, rfl⟩,
            fun hu => absurd hu halive⟩ ?_
          · rintro m ⟨⟩
            exact hok sz rfl
          · refine (freevm_balance hbal'' (h.space c old hold).belowKernel hf).congr fun f => ?_
            rw [slotCount, memCount_some]
            dsimp only
            omega
      · rw [himg]
        trivial

/-! ## Runs -/

/-- The arguments of `exec` have at most 32 MB each. -/
def Call.Short : Call → Prop
  | .exec call => ∀ a ∈ call.args, a.len + 1 ≤ 2 ^ 25
  | _ => True

theorem runCall_good (h : Inv lo hi s) (halive : (s.slot c).state = .alive) {call : Call}
    (hshort : call.Short) : Good lo hi (runCall lo hi c call s) := by
  have hne : (s.slot c).state ≠ .unused := by
    rw [halive]
    rintro ⟨⟩
  cases call with
  | fork => exact fork_good h hne
  | exec call => exact exec_good h hne hshort
  | sbrk n => exact sbrk_good h hne n
  | pipe => exact pipe_good h c
  | close fd => exact close_good h c fd
  | exit => exact exit_good h hne
  | wait => exact wait_good h c

theorem run_inv {es : List Event} (hrun : Run lo hi s es t) (hshort : ∀ e ∈ es, e.call.Short)
    (h : Inv lo hi s) : Inv lo hi t := by
  induction hrun with
  | nil => exact h
  | @snoc es t u e _ he ih =>
    obtain ⟨halive, -, hret⟩ := he
    have hgood := runCall_good (ih fun e he => hshort e (List.mem_append_left _ he)) halive
      (hshort e (List.mem_append_right _ List.mem_cons_self))
    rw [hret] at hgood
    exact hgood

theorem freerange_balance : ∀ (n a : Nat) (g : Free) {c : Frame → Nat}, 0 < a →
      Balance lo hi g (fun f => c f + if a ≤ f.val ∧ f.val < a + n then 1 else 0) →
      Balance lo hi (freerange lo hi a n g) c
  | 0, a, g, c, _, h => by
    refine h.congr fun f => ?_
    rw [if_neg (by omega), Nat.add_zero]
  | n + 1, a, g, c, ha, h => by
    have hne : a ≠ 0 := Nat.pos_iff_ne_zero.mp ha
    rw [freerange, dif_pos hne]
    refine freerange_balance n (a + 1) _ (Nat.succ_pos a) (Balance.kfree (h.congr fun f => ?_))
    rw [one]
    have hval : f = ⟨a, hne⟩ ↔ f.val = a := Subtype.ext_iff
    by_cases hf : f.val = a
    · rw [if_pos (hval.mpr hf), if_neg (by omega), if_pos (by omega)]
    · rw [if_neg fun hc => hf (hval.mp hc)]
      by_cases hr : a + 1 ≤ f.val ∧ f.val < a + 1 + n
      · rw [if_pos hr, if_pos (by omega)]
      · rw [if_neg hr, if_neg (by omega)]

theorem boot_inv {mid : Nat} (hlo : 0 < lo) (hmid : lo ≤ mid) (hhi : mid ≤ hi)
    (hboot : boot lo hi mid = some s) : Inv lo hi s := by
  have hstart : Balance lo hi ⟨[], false⟩ fun f => (0 + if mid ≤ f.val ∧ f.val < mid + (hi - mid) then
      1 else 0) + if lo ≤ f.val ∧ f.val < lo + (mid - lo) then 1 else 0 := by
    refine ⟨rfl, fun f => ?_⟩
    rw [List.count_nil]
    by_cases h₁ : f.val < mid
    · by_cases h₂ : lo ≤ f.val
      · rw [if_neg (by omega), if_pos (by omega), if_pos (by omega)]
      · rw [if_neg (by omega), if_neg (by omega), if_neg (by omega)]
    · by_cases h₂ : f.val < hi
      · rw [if_pos (by omega), if_neg (by omega), if_pos (by omega)]
      · rw [if_neg (by omega), if_neg (by omega), if_neg (by omega)]
  have hfirst := freerange_balance _ _ _ hlo hstart
  unfold boot at hboot
  split at hboot
  · rename_i kpgdir g₁ hk
    have hsecond : Balance lo hi (freerange lo hi mid (hi - mid) g₁) kpgdir.count := by
      refine freerange_balance _ _ _ (by omega) ((setupkvm_balance hfirst hk).congr fun f => ?_)
      rw [dirCount_some]
      omega
    split at hboot
    · rename_i kstack g₂ hstack
      have hbal₂ := hsecond.kalloc_some hstack
      split at hboot
      · rename_i d g₃ hd
        have hbal₃ := setupkvm_balance hbal₂ hd
        split at hboot
        · rename_i mem g₄ hmem
          have hbal₄ := hbal₃.kalloc_some hmem
          split at hboot
          · rename_i d' g₅ hmap
            cases hboot
            obtain ⟨o, u, hok, hnone⟩ := setupkvm_ok (k := kmem lo hi) g₂
            rw [hd] at hok
            cases hok
            obtain ⟨o', u', hok', hnone'⟩ :=
              setupkvm_ok (k := kmem lo hi) (freerange lo hi lo (mid - lo) ⟨[], false⟩)
            rw [hk] at hok'
            cases hok'
            obtain ⟨b, d'', u'', hspec, hpte⟩ :=
              mappages_spec (k := kmem lo hi) mem true (hnone d rfl 0) g₄
            rw [hmap] at hspec
            cases hspec
            have hbelow : d'.Below (pages PGSIZE) := by
              intro q hq
              have h₁ : pages PGSIZE = 1 := by decide
              rw [hpte, if_neg (by omega)]
              exact hnone d rfl q
            have hbal₅ := mappages_balance (e := fun f => kpgdir.count f + one kstack f)
              (hbal₄.congr fun f => by rw [dirCount_some]; omega) (by decide) hmap
            refine ⟨hbal₅.congr fun f => ?_, hnone' kpgdir rfl, fun i m hm => ?_, fun i hi' => ?_,
              fun i hi' => ?_, fun f p w hon => absurd hon.1 (Nat.lt_irrefl 0),
              fun f f' p w hon => absurd hon.1 (Nat.lt_irrefl 0)⟩
            · rw [count_eq _ 0, slotCount]
              unfold Sys.others
              dsimp only
              rw [if_pos rfl]
              have hrest : ∑ j ∈ Finset.univ.erase (0 : Fin NPROC), slotCount
                  (if j = 0 then ⟨.alive, some kstack, some ⟨PGSIZE, d'⟩, 0, fun _ => none⟩
                    else ⟨.unused, none, none, 0, fun _ => none⟩) f = 0 := by
                refine Finset.sum_eq_zero fun j hj => ?_
                rw [if_neg (Finset.ne_of_mem_erase hj)]
                rfl
              have hpipe : pipeCount ⟨false, false⟩ = 0 := rfl
              rw [hrest, hpipe, stackCount_some, memCount_some, if_pos rfl]
              dsimp only
              omega
            · dsimp only at hm
              split at hm
              · cases hm
                exact ⟨hbelow, show PGSIZE < KERNBASE by decide⟩
              · cases hm
            · dsimp only at hi' ⊢
              split at hi'
              · rename_i h0
                rw [if_pos h0]
                exact ⟨⟨_, rfl⟩, _, rfl⟩
              · exact absurd rfl hi'
            · dsimp only at hi' ⊢
              split at hi'
              · cases hi'
              · rename_i h0
                rw [if_neg h0]
                exact ⟨rfl, rfl⟩
          · cases hboot
        · cases hboot
      · cases hboot
    · cases hboot
  · cases hboot

/-- Each frame that the allocator was given is at one place: in the free list, in use by the
kernel's directory, by a process that is not unused, or by a pipe with an open end. No entry
for user programs is above the kernel, and `kfree` has not panicked. -/
structure Owned (lo hi : Nat) (s : Sys) : Prop where
  once : ∀ f : Frame, s.free.list.count f + s.count f = if lo ≤ f.val ∧ f.val < hi then 1 else 0
  unused : ∀ i, (s.slot i).state = .unused → (s.slot i).kstack = none ∧ (s.slot i).mem = none
  user : ∀ i m q x, (s.slot i).mem = some m → m.pgdir.pte q = some x → x.user = true → q < NUPAGE
  kernel : ∀ q, s.kpgdir.pte q = none
  quiet : s.free.panicked = false

theorem Inv.owned (h : Inv lo hi s) : Owned lo hi s := by
  refine ⟨h.balance.once, h.gone, fun i m q x hm hx _ => ?_, h.kernel, h.balance.quiet⟩
  by_contra hq
  rw [(h.space i m hm).belowKernel q (Nat.not_lt.mp hq)] at hx
  cases hx

end Xv6.Vm
