import Xv6.Paging.Ranges

/-!
# Address spaces

What `mappages`, `deallocuvm`, `freevm` and `setupkvm` do to the entries of a directory and
to the contents of the pages, with the frames accounted for (`Holds`). None of them panics.
-/

namespace Xv6.Paging

open Hoare Table Bytes Pool
open Vm (KERNBASE NPTENTRIES NUPAGE pages)

variable {L : Layout} {F S : Set Nat} {d d' : Dir} {m t : Mem} {p q f : Nat}

abbrev Never : Panic → Prop := fun _ => False

/-! ## User pages and the kernel's -/

structure SameKernel (d d' : Dir) : Prop where
  frame : d'.frame = d.frame
  pte : ∀ q, NUPAGE ≤ q → q < NPAGE → d'.pte? q = d.pte? q

theorem SameKernel.refl (d : Dir) : SameKernel d d := ⟨rfl, fun _ _ _ => rfl⟩

theorem SameKernel.trans {d'' : Dir} (h : SameKernel d d') (h' : SameKernel d' d'') : SameKernel d d'' :=
  ⟨h'.frame.trans h.frame, fun q h1 h2 => (h'.pte q h1 h2).trans (h.pte q h1 h2)⟩

theorem pte?_congr (ht : d'.HasTab q ↔ d.HasTab q) (he : d'.entry q = d.entry q) :
    d'.pte? q = d.pte? q := by
  by_cases h : d.HasTab q
  · rw [pte?_of_hasTab h, pte?_of_hasTab (ht.mpr h), he]
  · rw [pte?_of_not_hasTab h, pte?_of_not_hasTab fun hc => h (ht.mp hc)]

theorem pdx_ne (hp : p < NUPAGE) (hq : NUPAGE ≤ q) (hlt : q < NPAGE) : pdx q ≠ pdx p := by
  intro h
  have h := congrArg Fin.val h
  unfold pdx at h
  simp only [NUPAGE, KERNBASE, PGSIZE, NPTENTRIES, NPAGE] at *
  omega

theorem sameKernel_setPte (hp : p < NUPAGE) (ht : d.HasTab p) (e : Pte) : SameKernel d (d.setPte p e) := by
  refine ⟨rfl, fun q hq hlt => pte?_congr hasTab_setPte ?_⟩
  rw [entry_setPte (lt_npage hp) hlt ht, if_neg (Nat.ne_of_gt (Nat.lt_of_lt_of_le hp hq))]

/-! ## Mapping -/

structure PageMapped (F : Set Nat) (d : Dir) (S : Set Nat) (m : Mem) (p f : Nat) (flags : BitVec 12)
    (ok : Bool) (d' : Dir) (t : Mem) : Prop where
  ram : t.ram = m.ram
  sub : ∀ g ∈ t.free, g ∈ m.free
  kernel : SameKernel d d'
  tabs : ∀ q, d.HasTab q → d'.HasTab q
  entry : ∀ q < NUPAGE, d'.entry q = if ok = true ∧ q = p then ⟨f, flags⟩ else d.entry q
  holds : Holds F d' (if ok then S \ {f} else S) t

theorem mapLoop_page (h : Holds F d S m) (hF : Dealt L F) (hp : p < NUPAGE)
    (hno : (d.entry p).present = false) (hf : f ∈ S) {flags : BitVec 12} (hfl : flags.getLsbD 0 = true) :
    Wp (mapLoop flags 1 d p f) m (fun r t => PageMapped F d S m p f flags r.1 r.2 t) Never := by
  unfold mapLoop
  refine (walkpgdir_spec h hF p Never).seq ?_
  rintro (_ | d') t ⟨hram, hsub, hr⟩
  · exact wp_pure.mpr ⟨hram, hsub, .refl d, fun _ hq => hq, fun q _ => by simp, hr⟩
  · obtain ⟨hr, ht, hframe, hent, htab⟩ := hr
    have hk : SameKernel d d' := ⟨hframe, fun q hq hlt =>
      pte?_congr ((htab q).trans (or_iff_left (pdx_ne hp hq hlt))) (hent q)⟩
    have hno' : (d'.entry p).present = false := by rw [hent, hno]
    dsimp only
    rw [pte?_of_hasTab ht]
    dsimp only
    refine wp_ite (fun hc => by rw [hno'] at hc; cases hc) fun _ => ?_
    unfold mapLoop
    refine wp_pure.mpr ⟨hram, hsub, hk.trans (sameKernel_setPte hp ht _), fun q hq =>
      hasTab_setPte.mpr ((htab q).mpr (.inl hq)), fun q hq => ?_, hr.setPage hp ht hno' hf rfl hfl⟩
    rw [entry_setPte (lt_npage hp) (lt_npage hq) ht, hent]
    simp

theorem mappages_eq (d : Dir) {n : Nat} (hn : 0 < n) (hp : p + n ≤ NPAGE) (f : Nat) (perm : BitVec 12) :
    mappages d (p * PGSIZE) (n * PGSIZE) (f * PGSIZE) perm = mapLoop (perm ||| PTE_P) n d p f := by
  have hlow : BitVec.ofNat 12 (f * PGSIZE) = 0#12 := by
    apply BitVec.eq_of_toNat_eq
    simp only [BitVec.toNat_ofNat, PGSIZE]
    omega
  have hcount : ((p * PGSIZE + n * PGSIZE + 2 ^ 32 - 1) % 2 ^ 32 / PGSIZE + 2 ^ 20 -
      p * PGSIZE / PGSIZE) % 2 ^ 20 + 1 = n := by
    simp only [NPAGE, PGSIZE] at *
    omega
  unfold mappages
  dsimp only
  rw [hlow, hcount, BitVec.zero_or, Nat.mul_div_cancel _ (by decide), Nat.mul_div_cancel _ (by decide)]

theorem mappages_page (d : Dir) (hp : p < NPAGE) (f : Nat) (perm : BitVec 12) :
    mappages d (p * PGSIZE) PGSIZE (f * PGSIZE) perm = mapLoop (perm ||| PTE_P) 1 d p f := by
  have h := mappages_eq d (p := p) Nat.one_pos hp f perm
  rwa [Nat.one_mul] at h

/-! ## Freeing -/

/-- Page `q` is mapped to the frame `g`. -/
def Dir.At (d : Dir) (q g : Nat) : Prop := (d.entry q).present = true ∧ (d.entry q).frame = g

/-- The user pages from `p` to `stop` are freed. -/
structure Unmapped (F : Set Nat) (d : Dir) (S : Set Nat) (m : Mem) (p stop : Nat) (d' : Dir) (t : Mem) :
    Prop where
  ram : ∀ g, (∀ q < NUPAGE, p ≤ q → q < stop → ¬ d.At q g) → t.ram g = m.ram g
  free : ∀ g ∈ t.free, g ∈ m.free ∨ ∃ q < NUPAGE, p ≤ q ∧ q < stop ∧ d.At q g
  kernel : SameKernel d d'
  tabs : ∀ q, d'.HasTab q ↔ d.HasTab q
  gone : ∀ q, p ≤ q → q < stop → (d'.entry q).present = false
  entry : ∀ q < NUPAGE, ¬ (p ≤ q ∧ q < stop) → d'.entry q = d.entry q
  holds : Holds F d' S t

variable {stop : Nat}

theorem Unmapped.empty (h : Holds F d S m) (hp : stop ≤ p) : Unmapped F d S m p stop d m :=
  ⟨fun _ _ => rfl, fun _ hg => .inl hg, .refl d, fun _ => Iff.rfl, fun q h1 h2 => by omega,
    fun _ _ _ => rfl, h⟩

theorem Unmapped.skip {p' : Nat} (h : Unmapped F d S m p' stop d' t) (hle : p ≤ p')
    (hstop : stop ≤ NUPAGE) (hnone : ∀ q, p ≤ q → q < p' → q < stop → (d.entry q).present = false) :
    Unmapped F d S m p stop d' t where
  ram := fun g hg => h.ram g fun q hq h1 h2 => hg q hq (hle.trans h1) h2
  free := fun g hg => (h.free g hg).imp id fun ⟨q, hq, h1, h2, h3⟩ => ⟨q, hq, hle.trans h1, h2, h3⟩
  kernel := h.kernel
  tabs := h.tabs
  gone := fun q h1 h2 => by
    by_cases hq : p' ≤ q
    · exact h.gone q hq h2
    · rw [h.entry q (by omega) (by omega)]
      exact hnone q h1 (by omega) h2
  entry := fun q hq hno => by
    by_cases hin : p' ≤ q ∧ q < stop
    · exact absurd ⟨hle.trans hin.1, hin.2⟩ hno
    · exact h.entry q hq hin
  holds := h.holds

theorem own_setPte_zero (hp : p < NUPAGE) (ht : d.HasTab p) : (d.setPte p Pte.zero).own (.page p) = 0 ∧
      ∀ x, x ≠ .page p → (d.setPte p Pte.zero).own x = d.own x := by
  constructor
  · refine own_page_zero fun hc => ?_
    rw [entry_setPte (lt_npage hp) (lt_npage hp) ht, if_pos rfl] at hc
    cases hc.2
  · intro x hx
    cases x with
    | dir => rfl
    | tab i =>
      unfold Dir.own
      dsimp only
      rw [pde_setPte]
    | page q =>
      unfold Dir.own
      dsimp only
      by_cases hq : q < NUPAGE
      · have hne : q ≠ p := by
          rintro rfl
          exact hx rfl
        rw [entry_setPte (lt_npage hp) (lt_npage hq) ht, if_neg hne]
      · rw [if_neg fun hc => hq hc.1, if_neg fun hc => hq hc.1]

theorem Unmapped.cons {u : Mem} (hp : p < NUPAGE) (hlt : p < stop) (ht : d.HasTab p)
    (hpres : (d.entry p).present = true) (hram : ∀ g, g ≠ (d.entry p).frame → t.ram g = m.ram g)
    (hfree : ∀ g, g ∈ t.free ↔ g = (d.entry p).frame ∨ g ∈ m.free)
    (h : Unmapped F (d.setPte p Pte.zero) S t (p + 1) stop d' u) : Unmapped F d S m p stop d' u where
  ram := fun g hg => by
    have hsame : ∀ q < NUPAGE, p + 1 ≤ q → q < stop → ¬ (d.setPte p Pte.zero).At q g := by
      intro q hq h1 h2
      unfold Dir.At
      rw [entry_setPte (lt_npage hp) (lt_npage hq) ht, if_neg (by omega)]
      exact hg q hq (by omega) h2
    rw [h.ram g hsame]
    exact hram g fun hc => hg p hp (Nat.le_refl p) hlt ⟨hpres, hc.symm⟩
  free := fun g hg => by
    rcases h.free g hg with hg | ⟨q, hq, h1, h2, h3⟩
    · rcases (hfree g).mp hg with rfl | hg
      · exact .inr ⟨p, hp, Nat.le_refl p, hlt, hpres, rfl⟩
      · exact .inl hg
    · unfold Dir.At at h3
      rw [entry_setPte (lt_npage hp) (lt_npage hq) ht, if_neg (by omega)] at h3
      exact .inr ⟨q, hq, by omega, h2, h3⟩
  kernel := (sameKernel_setPte hp ht _).trans h.kernel
  tabs := fun q => (h.tabs q).trans hasTab_setPte
  gone := fun q h1 h2 => by
    by_cases hq : q = p
    · rw [hq, h.entry p hp (by omega), entry_setPte (lt_npage hp) (lt_npage hp) ht, if_pos rfl]
      rfl
    · exact h.gone q (by omega) h2
  entry := fun q hq hno => by
    rw [h.entry q hq (by omega), entry_setPte (lt_npage hp) (lt_npage hq) ht, if_neg (by omega)]
  holds := h.holds

theorem deallocEach_spec (hF : Dealt L F) : ∀ (n p : Nat) (d : Dir) (m : Mem), Holds F d S m →
    p + n ≤ NUPAGE → Wp (deallocEach L n p d) m (fun d' t => Unmapped F d S m p (p + n) d' t) Never
  | 0, p, d, m, h, _ => wp_pure.mpr (.empty h (Nat.le_refl p))
  | n + 1, p, d, m, h, hn => by
    have hp : p < NUPAGE := by omega
    have ih := fun d t h => (deallocEach_spec hF n (p + 1) d t h (by omega)).imp
      fun d' u hu => Nat.add_right_comm p 1 n ▸ hu
    -- a page that is not mapped is passed over
    have hpass : (d.entry p).present = false →
        Wp (deallocEach L n (p + 1) d) m (fun d' t => Unmapped F d S m p (p + (n + 1)) d' t) Never :=
      fun hno => (ih d m h).imp fun d' t ht => ht.skip (Nat.le_succ p) hn fun q h1 h2 _ => by
        rw [show q = p by omega, hno]
    have hentry : d.entry p = (d.pte? p).getD Pte.zero := rfl
    unfold deallocEach
    cases hpte : d.pte? p with
    | none => exact hpass (by rw [hentry, hpte]; rfl)
    | some e =>
      have ht : d.HasTab p := hasTab_iff.mpr (by rw [hpte]; exact Option.some_ne_none _)
      have he : d.entry p = e := by rw [hentry, hpte]; rfl
      dsimp only
      rw [← he]
      refine wp_ite (fun hpres => ?_) fun hpres => hpass (by simpa using hpres)
      have hown := own_page hp hpres
      refine wp_ite (fun h0 => absurd h0 (h.solid.page p hp hpres)) fun h0 => ?_
      rw [← hown] at h0 ⊢
      obtain ⟨hz, hrest⟩ := own_setPte_zero hp ht
      refine (kfree_place _ h.toHeld hF h0 hz hrest Never).seq ?_
      rintro _ t ⟨hram, hfree, hh⟩
      rw [hown] at hram hfree
      have hsolid := h.solid.setPte hp ht (e := Pte.zero) fun hc => by cases hc
      exact (ih _ t ⟨hh, hsolid⟩).imp fun d' u hu => .cons hp (by omega) ht hpres hram hfree hu

theorem pages_kernbase : pages KERNBASE = NUPAGE := by
  unfold pages
  simp only [NUPAGE, KERNBASE, PGSIZE]

theorem deallocuvm_spec (hF : Dealt L F) (h : Holds F d S m) {oldsz newsz : Nat}
    (hlt : newsz < oldsz) (hle : oldsz ≤ KERNBASE) : Wp (deallocuvm L d oldsz newsz) m
      (fun r t => Unmapped F d S m (pages newsz) (pages oldsz) r.2 t) Never := by
  have hstop : pages oldsz ≤ NUPAGE := by
    unfold pages
    simp only [NUPAGE, KERNBASE, PGSIZE] at *
    omega
  unfold deallocuvm
  rw [if_neg (by omega)]
  rw [deallocLoop_eq _ _ _ d (Nat.le_refl _)]
  have hmono : pages newsz ≤ pages oldsz := Nat.div_le_div_right (by omega)
  refine (deallocEach_spec hF _ _ d m h (by omega)).seq (fun d' t ht => wp_pure.mpr ?_)
  rwa [Nat.add_sub_cancel' hmono] at ht

/-! ## Freeing an address space -/

/-- The places of a directory without user pages whose page tables from the list are left. -/
def ownTabs (d : Dir) (is : List (Fin NPTENTRIES)) : Place → Nat
  | .dir => d.frame
  | .tab i => if i ∈ is then d.own (.tab i) else 0
  | .page _ => 0

/-- All of `F` is on the free list. -/
structure AllFree (F : Set Nat) (m : Mem) : Prop where
  nodup : m.free.Nodup
  free : ∀ f, f ∈ m.free ↔ f ∈ F

theorem AllFree.held (h : AllFree F m) : Held F (fun _ => 0) ∅ m where
  nodup := h.nodup
  free_sub := fun f hf => (h.free f).mp hf
  pool :=
    { inj := fun _ _ _ h0 => absurd rfl h0
      spare_ne_zero := fun _ hb => hb.elim
      own_ne_spare := fun _ hb => hb.elim
      used_iff := fun b hb => by
        rw [h.free]
        simp [Ne.symm hb] }

theorem Held.allFree (h : Held F (fun _ => 0) ∅ m) (hF : Dealt L F) : AllFree F m := by
  refine ⟨h.nodup, fun f => ⟨h.free_sub f, fun hf => ?_⟩⟩
  by_contra hno
  rcases (h.pool.used_iff f (hF.ne_zero hf)).mp ⟨hf, hno⟩ with ⟨x, hx⟩ | hx
  · exact hF.ne_zero hf hx.symm
  · exact hx

theorem freeTables_spec (hF : Dealt L F) (hsolid : d.Solid) : ∀ (is : List (Fin NPTENTRIES)) (m : Mem),
    is.Nodup → Held F (ownTabs d is) ∅ m →
    Wp (freeTables L d is) m (fun _ t => Held F (ownTabs d []) ∅ t ∧ ∀ f ∉ F, t.ram f = m.ram f) Never
  | [], m, _, h => wp_pure.mpr ⟨h, fun _ _ => rfl⟩
  | i :: is, m, hnd, h => by
    obtain ⟨hni, hnd⟩ := List.nodup_cons.mp hnd
    have hown : ownTabs d (i :: is) (.tab i) = d.own (.tab i) := if_pos List.mem_cons_self
    have hzero : ownTabs d is (.tab i) = 0 := if_neg hni
    have hrest : ∀ y, y ≠ Place.tab i → ownTabs d is y = ownTabs d (i :: is) y := by
      intro y hy
      cases y with
      | dir => rfl
      | page p => rfl
      | tab j =>
        have hj : j ≠ i := by
          rintro rfl
          exact hy rfl
        unfold ownTabs
        simp [hj]
    unfold freeTables
    cases ht : d.pde i with
    | none =>
      have h0 : d.own (.tab i) = 0 := by
        unfold Dir.own
        simp [ht]
      dsimp only
      rw [pure_bind]
      refine freeTables_spec hF hsolid is m hnd ⟨h.nodup, h.free_sub, h.pool.congr (fun y => ?_)
        fun _ => Iff.rfl⟩
      by_cases hy : y = .tab i
      · rw [hy, hzero, hown, h0]
      · exact hrest y hy
    | some tab =>
      have hframe : ownTabs d (i :: is) (.tab i) = tab.frame := by
        rw [hown]
        unfold Dir.own
        simp [ht]
      have h0 : ownTabs d (i :: is) (.tab i) ≠ 0 := hframe ▸ hsolid.tab i tab ht
      have hmem := (h.own_mem h0).1
      dsimp only
      rw [← hframe]
      refine (kfree_place _ h hF h0 hzero hrest Never).seq ?_
      rintro _ t ⟨hram, -, ht⟩
      refine (freeTables_spec hF hsolid is t hnd ht).imp ?_
      rintro _ u ⟨hu, hsame⟩
      refine ⟨hu, fun f hf => (hsame f hf).trans (hram f ?_)⟩
      rintro rfl
      exact hf hmem

theorem freevm_spec (hF : Dealt L F) (h : Holds F d ∅ m) :
    Wp (freevm L d) m (fun _ t => AllFree F t ∧ ∀ f ∉ F, t.ram f = m.ram f) Never := by
  have hall : ∀ i, i ∈ List.finRange NPTENTRIES := List.mem_finRange
  have hnd : (List.finRange NPTENTRIES).Nodup := List.nodup_finRange _
  unfold freevm
  generalize List.finRange NPTENTRIES = is at hall hnd ⊢
  refine (deallocuvm_spec hF h (show 0 < KERNBASE by decide) (Nat.le_refl KERNBASE)).seq ?_
  rintro ⟨_, d'⟩ t ht
  have hheld : Held F (ownTabs d' is) ∅ t := by
    refine ⟨ht.holds.nodup, ht.holds.free_sub, ht.holds.pool.congr (fun y => ?_) fun _ => Iff.rfl⟩
    cases y with
    | dir => rfl
    | tab i => exact if_pos (hall i)
    | page p =>
      refine (own_page_zero fun hc => ?_).symm
      have hp : p < pages KERNBASE := by
        rw [pages_kernbase]
        exact hc.1
      rw [ht.gone p (Nat.zero_le p) hp] at hc
      cases hc.2
  have hram : ∀ f ∉ F, t.ram f = m.ram f := by
    refine fun f hf => ht.ram f fun q hq _ _ hc => hf ?_
    have hown := own_page hq hc.1
    rw [hc.2] at hown
    exact hown ▸ (h.own_mem (hown ▸ hc.2 ▸ h.solid.page q hq hc.1)).1
  refine (freeTables_spec hF ht.holds.solid is t hnd hheld).seq ?_
  rintro _ u ⟨hu, hu'⟩
  have h0 : ownTabs d' [] .dir ≠ 0 := ht.holds.solid.dir
  refine (kfree_place (fun _ => 0) hu hF h0 rfl (fun y hy => ?_) Never).imp ?_
  · cases y with
    | dir => exact absurd rfl hy
    | tab i => rfl
    | page p => rfl
  · rintro _ v ⟨hv, -, hv'⟩
    refine ⟨hv'.allFree hF, fun f hf => ?_⟩
    rw [hv f (by rintro rfl; exact hf (hu.own_mem h0).1), hu' f hf, hram f hf]

/-! ## The kernel's mappings -/

/-- `n` pages from `p` on are mapped to the frames from `f` on. -/
structure RangeMapped (d : Dir) (p n f : Nat) (flags : BitVec 12) (d' : Dir) : Prop where
  entry : ∀ q < NPAGE, d'.entry q = if p ≤ q ∧ q < p + n then ⟨f + (q - p), flags⟩ else d.entry q
  tabs : ∀ q, d'.HasTab q ↔ d.HasTab q ∨ ∃ r, p ≤ r ∧ r < p + n ∧ pdx q = pdx r

theorem mapLoop_kernel (hF : Dealt L F) (flags : BitVec 12) : ∀ (n : Nat) (d : Dir) (p f : Nat) (m : Mem),
    Holds F d S m → NUPAGE ≤ p → p + n ≤ NPAGE → f + n ≤ NPAGE →
    (∀ q, p ≤ q → q < p + n → (d.entry q).present = false) →
    Wp (mapLoop flags n d p f) m (fun r t => t.ram = m.ram ∧ Holds F r.2 S t ∧
      (∀ g ∈ t.free, g ∈ m.free) ∧ (r.1 = true → RangeMapped d p n f flags r.2)) Never
  | 0, d, p, f, m, h, _, _, _, _ => by
    refine wp_pure.mpr ⟨rfl, h, fun _ hg => hg, fun _ => ⟨fun q _ => ?_, fun q => ?_⟩⟩
    · rw [if_neg (by omega)]
    · refine ⟨.inl, fun hq => hq.elim id ?_⟩
      rintro ⟨r, h1, h2, -⟩
      omega
  | n + 1, d, p, f, m, h, hp, hle, hfle, hno => by
    have hlt : p < NPAGE := by omega
    unfold mapLoop
    refine (walkpgdir_spec h hF p Never).seq ?_
    rintro (_ | d₁) t ⟨hram, hsub, hr⟩
    · exact wp_pure.mpr ⟨hram, hr, hsub, fun hc => by cases hc⟩
    · obtain ⟨hr, ht, -, hent, htab⟩ := hr
      have hno' : (d₁.entry p).present = false := by
        rw [hent]
        exact hno p (Nat.le_refl p) (by omega)
      dsimp only
      rw [pte?_of_hasTab ht]
      dsimp only
      refine wp_ite (fun hc => by rw [hno'] at hc; cases hc) fun _ => ?_
      have hent₂ : ∀ q < NPAGE, (d₁.setPte p ⟨f, flags⟩).entry q =
          if q = p then ⟨f, flags⟩ else d.entry q := fun q hq => by
        rw [entry_setPte hlt hq ht, hent]
      -- Where the loop goes on the frame number has not wrapped.
      have hnext : ∀ k < n, (f + 1) % 2 ^ 20 + k = f + 1 + k := by
        intro k hk
        simp only [NPAGE] at hfle
        rw [Nat.mod_eq_of_lt (by omega)]
      have hfn : (f + 1) % 2 ^ 20 + n ≤ NPAGE := by
        simp only [NPAGE] at hfle ⊢
        omega
      refine (mapLoop_kernel hF flags n _ (p + 1) _ t (hr.setKernel hp hlt ht _) (by omega) (by omega)
        hfn fun q h1 h2 => ?_).imp ?_
      · rw [hent₂ q (by omega), if_neg (by omega)]
        exact hno q (by omega) (by omega)
      · rintro ⟨ok, d'⟩ u ⟨hu, hh, hs, hmap⟩
        refine ⟨hu.trans hram, hh, fun g hg => hsub g (hs g hg), fun hok => ?_⟩
        have hm := hmap hok
        refine ⟨fun q hq => ?_, fun q => ?_⟩
        · rw [hm.entry q hq, hent₂ q hq]
          by_cases hqp : q = p
          · rw [if_neg (by omega), if_pos hqp, if_pos (by omega), hqp, Nat.sub_self, Nat.add_zero]
          · rw [if_neg hqp]
            by_cases hin : p + 1 ≤ q ∧ q < p + 1 + n
            · rw [if_pos hin, if_pos (by omega), hnext _ (by omega)]
              congr 1
              omega
            · rw [if_neg hin, if_neg (by omega)]
        · rw [hm.tabs q, hasTab_setPte, htab q, or_assoc]
          refine or_congr Iff.rfl ⟨?_, ?_⟩
          · rintro (he | ⟨r, h1, h2, he⟩)
            · exact ⟨p, Nat.le_refl p, by omega, he⟩
            · exact ⟨r, by omega, by omega, he⟩
          · rintro ⟨r, h1, h2, he⟩
            by_cases hrp : r = p
            · exact .inl (hrp ▸ he)
            · exact .inr ⟨r, by omega, by omega, he⟩

/-- The pages of a row of `kmap`. -/
def Kmap.page (k : Kmap) : Nat := k.virt / PGSIZE

def Kmap.frame (k : Kmap) : Nat := k.physStart / PGSIZE

def Kmap.len (k : Kmap) : Nat := (k.physEnd + 2 ^ 32 - k.physStart) % 2 ^ 32 / PGSIZE

/-- Page `q` is one of them. -/
def Kmap.Covers (k : Kmap) (q : Nat) : Prop := k.page ≤ q ∧ q < k.page + k.len

instance (k : Kmap) (q : Nat) : Decidable (k.Covers q) := by
  unfold Kmap.Covers
  infer_instance

/-- The entry that it gives page `q`. -/
def Kmap.pte (k : Kmap) (q : Nat) : Pte := ⟨k.frame + (q - k.page), k.perm ||| PTE_P⟩

/-- A row of whole pages in the kernel's half. -/
structure Kmap.Sound (k : Kmap) : Prop where
  virt : k.page * PGSIZE = k.virt
  phys : k.frame * PGSIZE = k.physStart
  size : k.len * PGSIZE = (k.physEnd + 2 ^ 32 - k.physStart) % 2 ^ 32
  pos : 0 < k.len
  kernel : NUPAGE ≤ k.page
  page_le : k.page + k.len ≤ NPAGE
  frame_le : k.frame + k.len ≤ NPAGE

/-- The row that page `q` is in. -/
def rowOf (ks : List Kmap) (q : Nat) : Option Kmap := ks.find? fun k => k.Covers q

structure RowsMapped (d : Dir) (ks : List Kmap) (d' : Dir) : Prop where
  entry : ∀ q < NPAGE, d'.entry q = (rowOf ks q).elim (d.entry q) fun k => k.pte q
  tabs : ∀ q, d'.HasTab q ↔ d.HasTab q ∨ ∃ k ∈ ks, ∃ r, k.Covers r ∧ pdx q = pdx r

theorem RowsMapped.nil (d : Dir) : RowsMapped d [] d :=
  ⟨fun _ _ => rfl, fun q => by simp⟩

variable {ks : List Kmap}

theorem RowsMapped.cons {k : Kmap} {d₁ : Dir}
    (h₁ : RangeMapped d k.page k.len k.frame (k.perm ||| PTE_P) d₁)
    (hdis : ∀ k' ∈ ks, ∀ q, k.Covers q → ¬ k'.Covers q) (h : RowsMapped d₁ ks d') :
    RowsMapped d (k :: ks) d' := by
  refine ⟨fun q hq => ?_, fun q => ?_⟩
  · rw [h.entry q hq, h₁.entry q hq]
    unfold rowOf
    by_cases hc : k.Covers q
    · have hnone : ks.find? (fun k => k.Covers q) = none := by
        rw [List.find?_eq_none]
        intro k' hk'
        simpa using hdis k' hk' q hc
      rw [hnone, List.find?_cons_of_pos (by simpa using hc)]
      exact if_pos hc
    · rw [List.find?_cons_of_neg (by simpa using hc), if_neg (show ¬ (k.page ≤ q ∧ q < k.page + k.len) from hc)]
  · rw [h.tabs q, h₁.tabs q, or_assoc]
    refine or_congr Iff.rfl ?_
    simp only [List.exists_mem_cons_iff]
    refine or_congr ?_ Iff.rfl
    unfold Kmap.Covers
    simp only [and_assoc]

theorem mapKernel_spec (hF : Dealt L F) : ∀ (ks : List Kmap) (d : Dir) (m : Mem), Holds F d ∅ m →
    (∀ k ∈ ks, k.Sound) → ks.Pairwise (fun k k' => ∀ q, k.Covers q → ¬ k'.Covers q) →
    (∀ k ∈ ks, ∀ q, k.Covers q → (d.entry q).present = false) →
    Wp (mapKernel L ks d) m (fun r t => (∀ f ∉ F, t.ram f = m.ram f) ∧ match r with
      | none => AllFree F t
      | some d' => t.ram = m.ram ∧ (∀ g ∈ t.free, g ∈ m.free) ∧ Holds F d' ∅ t ∧ RowsMapped d ks d') Never
  | [], d, m, h, _, _, _ => wp_pure.mpr ⟨fun _ _ => rfl, rfl, fun _ hg => hg, h, .nil d⟩
  | k :: ks, d, m, h, hs, hpw, hno => by
    have hk := hs k List.mem_cons_self
    obtain ⟨hdis, hpw⟩ := List.pairwise_cons.mp hpw
    have hmap := mappages_eq d hk.pos hk.page_le k.frame k.perm
    rw [hk.virt, hk.phys, hk.size] at hmap
    unfold mapKernel
    rw [hmap]
    refine (mapLoop_kernel hF _ k.len d k.page k.frame m h hk.kernel hk.page_le hk.frame_le
      fun q h1 h2 => hno k List.mem_cons_self q ⟨h1, h2⟩).seq ?_
    rintro ⟨ok, d₁⟩ t ⟨hram, ht, hsub, hok⟩
    cases ok with
    | false =>
      refine (freevm_spec hF ht).seq ?_
      rintro _ u ⟨hall, hu⟩
      exact wp_pure.mpr ⟨fun f hf => by rw [hu f hf, hram], hall⟩
    | true =>
      have hm := hok rfl
      refine (mapKernel_spec hF ks d₁ t ht (fun k' hk' => hs k' (List.mem_cons_of_mem _ hk')) hpw
        fun k' hk' q hq => ?_).imp ?_
      · have hlt := (hs k' (List.mem_cons_of_mem _ hk')).page_le
        rw [hm.entry q (Nat.lt_of_lt_of_le hq.2 hlt), if_neg fun hc : k.page ≤ q ∧ q < k.page + k.len => hdis k' hk' q hc hq]
        exact hno k' (List.mem_cons_of_mem _ hk') q hq
      · rintro (_ | d') u ⟨hu, hr⟩
        · exact ⟨fun f hf => by rw [hu f hf, hram], hr⟩
        · obtain ⟨hu', hfree, hh, hrows⟩ := hr
          exact ⟨fun f hf => by rw [hu f hf, hram], hu'.trans hram, fun g hg => hsub g (hfree g hg), hh,
            .cons hm hdis hrows⟩

/-- The kernel's entry for page `q`, if it has a page table for it. -/
def kernPte (L : Layout) (q : Nat) : Option Pte := (rowOf (kmap L) q).map fun k => k.pte q

theorem kmap_sound (L : Layout) : ∀ k ∈ kmap L, k.Sound := by
  have h1 := L.text_lt
  have h2 := L.data_lt
  have h3 := L.first_le
  intro k hk
  simp only [kmap, List.mem_cons, List.not_mem_nil, or_false] at hk
  rcases hk with rfl | rfl | rfl | rfl <;>
    constructor <;>
    simp only [Kmap.page, Kmap.frame, Kmap.len, KERNBASE, EXTMEM, PHYSTOP, DEVSPACE, PGSIZE, NUPAGE, NPAGE,
      NFRAME] at * <;>
    omega

theorem kmap_disjoint (L : Layout) : (kmap L).Pairwise fun k k' => ∀ q, k.Covers q → ¬ k'.Covers q := by
  have h1 := L.text_lt
  have h2 := L.data_lt
  have h3 := L.first_le
  unfold kmap
  simp only [List.pairwise_cons, List.mem_cons, List.not_mem_nil, or_false, forall_eq_or_imp, forall_eq,
    Kmap.Covers, Kmap.page, Kmap.len, KERNBASE, EXTMEM, PHYSTOP, DEVSPACE, PGSIZE, NFRAME] at *
  refine ⟨⟨?_, ?_, ?_⟩, ⟨?_, ?_⟩, ?_, ?_⟩ <;> first | (intro q; omega) | simp

theorem kmap_tables (L : Layout) {r : Nat} (hq : q < NPAGE) (h : ∃ k ∈ kmap L, k.Covers r)
    (he : pdx q = pdx r) : ∃ k ∈ kmap L, k.Covers q := by
  have h1 := L.text_lt
  have h2 := L.data_lt
  have h3 := L.first_le
  have he := congrArg Fin.val he
  simp only [kmap, List.mem_cons, List.not_mem_nil, or_false, exists_eq_or_imp, exists_eq_left,
    Kmap.Covers, Kmap.page, Kmap.len, KERNBASE, EXTMEM, PHYSTOP, DEVSPACE, PGSIZE, NFRAME, NPAGE, pdx,
    NPTENTRIES] at *
  omega

theorem rowOf_eq_none : rowOf ks q = none ↔ ∀ k ∈ ks, ¬ k.Covers q := by
  unfold rowOf
  simp [List.find?_eq_none]

theorem rowOf_eq_some {k : Kmap} (h : rowOf ks q = some k) : k ∈ ks ∧ k.Covers q :=
  ⟨List.mem_of_find?_eq_some h, by simpa using List.find?_some h⟩

theorem kernPte_user (L : Layout) (hq : q < NUPAGE) : kernPte L q = none := by
  unfold kernPte
  rw [rowOf_eq_none.mpr fun k hk hc => ?_]
  · rfl
  · have h1 := (kmap_sound L k hk).kernel
    have h2 := hc.1
    omega

theorem kernPte_not_user {e : Pte} (h : kernPte L q = some e) : e.user = false := by
  obtain ⟨k, hk, rfl⟩ := Option.map_eq_some_iff.mp h
  obtain ⟨hk, -⟩ := rowOf_eq_some hk
  simp only [kmap, List.mem_cons, List.not_mem_nil, or_false] at hk
  rcases hk with rfl | rfl | rfl | rfl <;>
    simp only [Pte.user, Kmap.pte] <;>
    decide

/-- An address space with nothing in the user's half. -/
structure KernelOnly (L : Layout) (d : Dir) : Prop where
  kernel : ∀ q, NUPAGE ≤ q → q < NPAGE → d.pte? q = kernPte L q
  user : ∀ q < NUPAGE, d.pte? q = none

theorem rowsMapped_kmap (hd : ∀ i, d.pde i = none) (h : RowsMapped d (kmap L) d') (hq : q < NPAGE) :
    d'.pte? q = kernPte L q := by
  have htab : ¬ d.HasTab q := fun hc => hc (hd _)
  unfold kernPte
  cases hrow : rowOf (kmap L) q with
  | none =>
    refine pte?_of_not_hasTab fun hc => ?_
    rcases (h.tabs q).mp hc with hc | ⟨k, hk, r, hr, he⟩
    · exact htab hc
    · obtain ⟨k', hk', hcov⟩ := kmap_tables L hq ⟨k, hk, hr⟩ he
      exact rowOf_eq_none.mp hrow k' hk' hcov
  | some k =>
    obtain ⟨hk, hcov⟩ := rowOf_eq_some hrow
    rw [pte?_of_hasTab ((h.tabs q).mpr (.inr ⟨k, hk, q, hcov, rfl⟩)), h.entry q hq, hrow]
    rfl

theorem setupkvm_spec (hF : Dealt L F) (h : AllFree F m) :
    Wp (setupkvm L) m (fun r t => (∀ f ∉ F, t.ram f = m.ram f) ∧ match r with
      | none => AllFree F t
      | some d => t.ram = m.ram ∧ Holds F d ∅ t ∧ KernelOnly L d) Never := by
  unfold setupkvm
  refine (kalloc_spec h.held hF Never).seq ?_
  rintro (_ | f) t ⟨hram, -, hr⟩
  · exact wp_pure.mpr ⟨fun f _ => by rw [hram], hr.allFree hF⟩
  · obtain ⟨-, -, hr⟩ := hr
    have hempty : ∀ q, ((⟨f, fun _ => none⟩ : Dir).entry q).present = false := fun q => by
      rw [show (⟨f, fun _ => none⟩ : Dir).entry q = Pte.zero from rfl, present_zero]
    have hd : Holds F ⟨f, fun _ => none⟩ ∅ t := by
      have hf0 := hr.pool.spare_ne_zero f (Set.mem_insert f ∅)
      refine ⟨⟨hr.nodup, hr.free_sub, ?_⟩, hf0, fun i tab hi => (by cases hi), fun p _ hp => ?_⟩
      on_goal 2 =>
        rw [hempty] at hp
        cases hp
      have hset : (∅ : Set Nat) = insert f ∅ \ {f} := by simp
      rw [hset]
      refine hr.pool.assign (p := .dir) rfl (Set.mem_insert f ∅) rfl fun x hx => ?_
      cases x with
      | dir => exact absurd rfl hx
      | tab i => rfl
      | page p => exact own_page_zero fun hc => by rw [hempty] at hc; cases hc.2
    refine (mapKernel_spec hF (kmap L) _ t hd (kmap_sound L) (kmap_disjoint L) fun k _ q _ => hempty q).imp ?_
    rintro (_ | d) u ⟨hu, hr⟩
    · exact ⟨fun f hf => by rw [hu f hf, hram], hr⟩
    · obtain ⟨hu', -, hh, hrows⟩ := hr
      have hpte : ∀ q < NPAGE, d.pte? q = kernPte L q := fun q hq => rowsMapped_kmap (fun _ => rfl) hrows hq
      refine ⟨fun f hf => by rw [hu f hf, hram], hu'.trans hram, hh, fun q _ hq => hpte q hq, fun q hq => ?_⟩
      rw [hpte q (lt_npage hq), kernPte_user L hq]

end Xv6.Paging
