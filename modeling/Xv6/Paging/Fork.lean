import Xv6.Paging.Copyout
import Xv6.Paging.Space

/-!
# The memory of a child

`copyuvm` gives the child of `fork` a directory with the same pages: the same flags and
the same bytes, in frames that were free. So the user's stores through the one directory
are not seen through the other. If memory runs out the frames are all given back.

Two directories that reach no frame in common do not interfere: what is read
through one depends on the stores made through it (`load_stores`).
-/

namespace Xv6.Paging

open Hoare Table Bytes Pool
open Vm (KERNBASE NPTENTRIES NUPAGE pages)

variable {L : Layout} {F S : Set Nat} {pgdir d d' : Dir} {m m₀ t : Mem} {p q f : Nat}

/-! ## What the user does -/

structure UserStore where
  va : BitVec 32
  byte : UInt8

/-- The user can store to page `p`. -/
def Dir.writable (d : Dir) (p : Nat) : Bool :=
  match d.pte? p with
  | none => false
  | some e => e.present && e.user && e.flags.getLsbD 1

/-- The store of a byte. One that the entry does not allow traps, and stores nothing. -/
def Dir.userStore (d : Dir) (w : UserStore) (ram : Nat → Page) : Nat → Page :=
  let p := w.va.toNat / PGSIZE
  if d.writable p then store ram (d.frameOf p) (w.va.toNat % PGSIZE) w.byte else ram

/-- The byte that the user reads, if the entry allows it. -/
def Dir.userLoad (d : Dir) (va : BitVec 32) (ram : Nat → Page) : Option UInt8 :=
  match d.pte? (va.toNat / PGSIZE) with
  | none => none
  | some e => if e.present && e.user then some (byte (ram e.frame) (va.toNat % PGSIZE)) else none

/-- Stores through two directories, in turn. -/
def userStores (dirs : Bool → Dir) (ws : List (Bool × UserStore)) (ram : Nat → Page) : Nat → Page :=
  ws.foldl (fun ram w => (dirs w.1).userStore w.2 ram) ram

/-- The user reaches the frame `g`. -/
def Dir.ReachesFrame (d : Dir) (g : Nat) : Prop := ∃ q < NPAGE, d.Reaches q ∧ d.frameOf q = g

/-! ## Isolation -/

theorem page_lt (va : BitVec 32) : va.toNat / PGSIZE < NPAGE := by
  have := va.isLt
  simp only [PGSIZE, NPAGE]
  omega

theorem Dir.Reaches.of_writable (h : d.writable p = true) : d.Reaches p := by
  unfold Dir.writable at h
  split at h
  next => cases h
  next e he =>
    simp only [Bool.and_eq_true] at h
    exact ⟨e, he, h.1.1, h.1.2⟩

variable {g : Nat}

theorem userStore_other (w : UserStore) (ram : Nat → Page) (hg : ¬ d.ReachesFrame g) :
    d.userStore w ram g = ram g := by
  unfold Dir.userStore
  split
  next hw =>
    refine upd_ne _ _ ?_
    rintro rfl
    exact hg ⟨_, page_lt w.va, .of_writable hw, rfl⟩
  next => rfl

variable {ram ram' : Nat → Page}

theorem userStore_congr (w : UserStore) (h : ram g = ram' g) :
    d.userStore w ram g = d.userStore w ram' g := by
  unfold Dir.userStore
  split
  next =>
    unfold store
    by_cases hg : g = d.frameOf (w.va.toNat / PGSIZE)
    · rw [← hg, upd_same, upd_same, h]
    · rw [upd_ne _ _ hg, upd_ne _ _ hg, h]
  next => exact h

theorem userLoad_congr (va : BitVec 32)
    (h : ∀ g, d.ReachesFrame g → ram g = ram' g) : d.userLoad va ram = d.userLoad va ram' := by
  unfold Dir.userLoad
  split
  next => rfl
  next e he =>
    split
    next hc =>
      obtain ⟨h1, h2⟩ := Bool.and_eq_true_iff.mp hc
      rw [h e.frame ⟨_, page_lt va, ⟨e, he, h1, h2⟩, reaches_frameOf he⟩]
    next => rfl

theorem userStores_own {dirs : Bool → Dir} {b : Bool}
    (hdis : ∀ g, (dirs b).ReachesFrame g → ¬ (dirs !b).ReachesFrame g) (ws : List (Bool × UserStore)) (h : ∀ g, (dirs b).ReachesFrame g → ram g = ram' g) (g : Nat)
    (hg : (dirs b).ReachesFrame g) :
    userStores dirs ws ram g = userStores dirs (ws.filter fun w => w.1 = b) ram' g := by
  induction ws generalizing ram ram' with
  | nil => exact h g hg
  | cons w ws ih =>
    by_cases hw : w.1 = b
    · rw [List.filter_cons_of_pos (by simpa using hw)]
      refine ih fun g hg => ?_
      exact userStore_congr w.2 (h g hg)
    · rw [List.filter_cons_of_neg (by simpa using hw)]
      refine ih fun g hg => ?_
      have hside : w.1 = !b := by
        cases hb : w.1 <;> cases b <;> simp_all
      rw [← h g hg]
      exact userStore_other w.2 ram (hside ▸ hdis g hg)

theorem load_stores (dirs : Bool → Dir) (b : Bool)
    (hdis : ∀ g, (dirs b).ReachesFrame g → ¬ (dirs !b).ReachesFrame g) (ws : List (Bool × UserStore))
    (ram : Nat → Page) (va : BitVec 32) : (dirs b).userLoad va (userStores dirs ws ram) =
      (dirs b).userLoad va (userStores dirs (ws.filter fun w => w.1 = b) ram) :=
  userLoad_congr va fun g hg => userStores_own hdis ws (fun _ _ => rfl) g hg

/-! ## Copying -/

/-- Page `q` is a copy. -/
structure PageCopy (pgdir d : Dir) (m t : Mem) (q : Nat) : Prop where
  flags : (d.entry q).flags = (pgdir.entry q).flags
  present : (d.entry q).present = true
  bytes : t.ram (d.entry q).frame = m.ram (pgdir.entry q).frame

/-- The pages below `p` have been copied. -/
structure Copying (L : Layout) (F : Set Nat) (pgdir : Dir) (m₀ : Mem) (p : Nat) (d : Dir) (m : Mem) :
    Prop where
  holds : Holds F d ∅ m
  ram : ∀ g ∉ F, m.ram g = m₀.ram g
  kernel : ∀ q, NUPAGE ≤ q → q < NPAGE → d.pte? q = kernPte L q
  done : ∀ q < p, PageCopy pgdir d m₀ m q
  rest : ∀ q, p ≤ q → q < NUPAGE → (d.entry q).present = false

variable {e : Pte}

theorem or_present (h : e.present = true) : e.flags ||| PTE_P = e.flags := by
  unfold Pte.present at h
  apply BitVec.eq_of_getLsbD_eq
  intro i hi
  rw [BitVec.getLsbD_or]
  by_cases h0 : i = 0
  · rw [h0, h, Bool.true_or]
  · have hbit : ∀ i < 12, i ≠ 0 → PTE_P.getLsbD i = false := by decide
    rw [hbit i hi h0, Bool.or_false]

theorem mapLoop_remap (hp : (d.entry p).present = true) (flags : BitVec 12) (n f : Nat) (m : Mem)
    {Q : Bool × Dir → Mem → Prop} {E : Panic → Prop} (hE : E .remap) :
    Wp (mapLoop flags (n + 1) d p f) m Q E := by
  have htab := hasTab_of_present hp
  obtain ⟨tab, ht⟩ := Option.ne_none_iff_exists'.mp htab
  unfold mapLoop walkpgdir
  rw [ht]
  dsimp only
  rw [pure_bind]
  dsimp only
  rw [pte?_of_hasTab htab]
  dsimp only
  rw [if_pos hp]
  exact wp_throw.mpr hE

theorem kernPte_first (L : Layout) : kernPte L NUPAGE = some ⟨0, PTE_W ||| PTE_P⟩ := rfl

theorem Copying.step {u : Mem} (h : Copying L F pgdir m₀ p d m) (hp : p < NUPAGE)
    (hpres : (pgdir.entry p).present = true) (hout : (pgdir.entry p).frame ∉ F) (hfm : f ∈ m.free)
    (hram : t.ram = upd m.ram f (m.ram (pgdir.entry p).frame))
    (hu : PageMapped F d {f} t p f (pgdir.entry p).flags true d' u) :
    Copying L F pgdir m₀ (p + 1) d' u where
  holds := by simpa using hu.holds
  ram := fun g hg => by
    have hne : g ≠ f := by
      rintro rfl
      exact hg (h.holds.free_sub _ hfm)
    rw [hu.ram, hram, upd_ne _ _ hne, h.ram g hg]
  kernel := fun q h1 h2 => by rw [hu.kernel.pte q h1 h2, h.kernel q h1 h2]
  done := fun q hq => by
    by_cases hqp : q = p
    · have he : d'.entry q = ⟨f, (pgdir.entry p).flags⟩ := by rw [hqp, hu.entry p hp, if_pos ⟨rfl, rfl⟩]
      refine ⟨by rw [he, hqp], by rw [he]; exact hpres, ?_⟩
      rw [he, hu.ram, hram, upd_same, h.ram _ hout, hqp]
    · have he : d'.entry q = d.entry q := by rw [hu.entry q (by omega), if_neg (by omega)]
      have hc := h.done q (by omega)
      refine ⟨by rw [he, hc.flags], by rw [he, hc.present], ?_⟩
      -- The frame of a page that is mapped was not free.
      have hne : (d.entry q).frame ≠ f := by
        rintro rfl
        have hown := own_page (show q < NUPAGE by omega) hc.present
        have hmem := h.holds.own_mem (x := .page q) (hown ▸ h.holds.solid.page q (by omega) hc.present)
        exact hmem.2 (hown ▸ hfm)
      rw [he, hu.ram, hram, upd_ne _ _ hne, hc.bytes]
  rest := fun q h1 h2 => by
    rw [hu.entry q h2, if_neg (by omega)]
    exact h.rest q (by omega) h2

/-- What `copyuvm` has done when it returns. -/
def CopyEnd (L : Layout) (F : Set Nat) (pgdir : Dir) (m₀ : Mem) (n : Nat) (r : Option Dir) (t : Mem) :
    Prop :=
  match r with
  | none => AllFree F t ∧ ∀ g ∉ F, t.ram g = m₀.ram g
  | some d => n ≤ NUPAGE ∧ Copying L F pgdir m₀ n d t

theorem freevm_none (hF : Dealt L F) (h : Holds F d ∅ m) (hram : ∀ g ∉ F, m.ram g = m₀.ram g) (n : Nat)
    {E : Panic → Prop} : Wp (do freevm L d; return none) m (CopyEnd L F pgdir m₀ n) E := by
  refine (freevm_spec hF h).bind ?_ fun _ he => he.elim
  rintro _ t ⟨hall, ht⟩
  exact wp_pure.mpr ⟨hall, fun g hg => by rw [ht g hg, hram g hg]⟩

theorem copyLoop_spec (hF : Dealt L F) : ∀ (n p : Nat) (d : Dir) (m : Mem),
    Copying L F pgdir m₀ p d m → p ≤ NUPAGE → (∀ q < p + n, (pgdir.entry q).present = true) →
    (∀ q < NUPAGE, (pgdir.entry q).present = true → (pgdir.entry q).frame ∉ F) →
    Wp (copyLoop L pgdir n p d) m (CopyEnd L F pgdir m₀ (p + n)) fun _ => NUPAGE < p + n
  | 0, p, d, m, h, hp, _, _ => wp_pure.mpr ⟨hp, h⟩
  | n + 1, p, d, m, h, hp, hpres, hout => by
    have hpr := hpres p (by omega)
    unfold copyLoop
    rw [pte?_of_hasTab (hasTab_of_present hpr)]
    dsimp only
    rw [if_pos hpr]
    refine (kalloc_spec h.holds.toHeld hF Never).bind ?_ fun _ he => he.elim
    rintro (_ | f) t ⟨hram, hsub, hr⟩
    · exact freevm_none hF ⟨hr, h.holds.solid⟩ (fun g hg => by rw [hram, h.ram g hg]) _
    · obtain ⟨hfm, -, hr⟩ := hr
      have hfF := h.holds.free_sub f hfm
      dsimp only
      unfold setPage
      rw [wp_bind, wp_get, wp_bind, wp_modify, wp_bind]
      by_cases hlt : p < NUPAGE
      · rw [mappages_page d (lt_npage hlt), or_present hpr, hram]
        have hh : Holds F d {f} { t with ram := upd m.ram f (m.ram (pgdir.entry p).frame) } := by
          refine Holds.of_free_eq (m := t) ⟨?_, h.holds.solid⟩ rfl
          simpa using hr
        refine (mapLoop_page hh hF hlt (h.rest p (Nat.le_refl p) hlt) (Set.mem_singleton f) hpr).mono ?_
          fun _ he => he.elim
        rintro ⟨ok, d₁⟩ u hu
        cases ok with
        | false =>
          have hhu : Holds F d₁ {f} u := by simpa using hu.holds
          refine (kfree_spec hhu.toHeld hF (Set.mem_singleton f) Never).bind ?_ fun _ he => he.elim
          rintro _ v ⟨hv, -, hv'⟩
          have hhv : Holds F d₁ ∅ v := ⟨by simpa using hv', hhu.solid⟩
          refine freevm_none hF hhv (fun g hg => ?_) _
          have hne : g ≠ f := by
            rintro rfl
            exact hg hfF
          rw [hv g hne, hu.ram]
          dsimp only
          rw [upd_ne _ _ hne, h.ram g hg]
        | true =>
          have hstep := h.step hlt hpr (hout p hlt hpr) hfm rfl hu
          have hnext := copyLoop_spec hF n (p + 1) d₁ u hstep (by omega)
            (fun q hq => hpres q (by omega)) hout
          rwa [show p + 1 + n = p + (n + 1) by omega] at hnext
      · -- The first page of the kernel is mapped already.
        have hpe : p = NUPAGE := by omega
        have hent : (d.entry p).present = true := by
          unfold Dir.entry
          rw [hpe, h.kernel NUPAGE (Nat.le_refl _) (by decide), kernPte_first]
          rfl
        rw [mappages_page d (by rw [hpe]; decide)]
        exact mapLoop_remap hent _ 0 f _ (by omega)

/-! ## The child -/

/-- The free list of `kalloc.c`. -/
structure FreeList (L : Layout) (m : Mem) : Prop where
  nodup : m.free.Nodup
  dealt : Dealt L {f | f ∈ m.free}

/-- The frame `g` has a page of `d`'s user half, or one that the user reaches. -/
def Dir.Maps (d : Dir) (g : Nat) : Prop :=
  (∃ q < NUPAGE, (d.entry q).present = true ∧ (d.entry q).frame = g) ∨ d.ReachesFrame g

/-- The directory `d` is an equal but separate memory of `sz` bytes: before the copy the memory
was `m`, and after it `t`. -/
structure Forked (L : Layout) (pgdir d : Dir) (sz : Nat) (m t : Mem) : Prop where
  /-- The same flags and the same bytes. -/
  copy : ∀ va < sz, ∃ e e', pgdir.pte? (va / PGSIZE) = some e ∧ d.pte? (va / PGSIZE) = some e' ∧
    e'.flags = e.flags ∧ e'.present = true ∧ t.ram e'.frame = m.ram e.frame
  distinct : ∀ va < sz, ∀ va' < sz, d.frameOf (va / PGSIZE) = d.frameOf (va' / PGSIZE) →
    va / PGSIZE = va' / PGSIZE
  apart : ∀ va < sz, ¬ pgdir.Maps (d.frameOf (va / PGSIZE))
  /-- The kernel's half is that of any directory which `setupkvm` returns. -/
  kernel : ∀ d₀ m₀ t₀, FreeList L m₀ → setupkvm L m₀ = .ok (some d₀, t₀) →
    ∀ q, NUPAGE ≤ q → q < NPAGE → d.pte? q = d₀.pte? q
  same : ∀ g, pgdir.Maps g → t.ram g = m.ram g
  /-- What is read through each directory depends on the stores made through it. -/
  separate : ∀ (ws : List (Bool × UserStore)) (va : BitVec 32) (b : Bool),
    (bif b then d else pgdir).userLoad va (userStores (fun b => bif b then d else pgdir) ws t.ram) =
      (bif b then d else pgdir).userLoad va
        (userStores (fun b => bif b then d else pgdir) (ws.filter fun w => w.1 = b) t.ram)

theorem FreeList.allFree (h : FreeList L m) : AllFree {f | f ∈ m.free} m := ⟨h.nodup, fun _ => Iff.rfl⟩

theorem setupkvm_kernel (h : FreeList L m) (hok : setupkvm L m = .ok (some d, t)) (hq : NUPAGE ≤ q)
    (hlt : q < NPAGE) : d.pte? q = kernPte L q := by
  exact (wp_ok (setupkvm_spec h.dealt h.allFree) hok).2.2.2.kernel q hq hlt

theorem Copying.frame_mem (h : Copying L F pgdir m₀ p d m) (hq : q < NUPAGE)
    (hpres : (d.entry q).present = true) : (d.entry q).frame ∈ F := by
  have hown := own_page hq hpres
  exact hown ▸ (h.holds.own_mem (hown ▸ h.holds.solid.page q hq hpres)).1

theorem entry_of_pte? (h : d.pte? q = some e) : d.entry q = e := by
  rw [Dir.entry, h]
  rfl

theorem Copying.reaches_mem (h : Copying L F pgdir m₀ p d m) (hg : d.ReachesFrame g) : g ∈ F := by
  obtain ⟨q, hq, ⟨e, he, hpres, huser⟩, rfl⟩ := hg
  by_cases hlt : q < NUPAGE
  · have hent := entry_of_pte? he
    rw [reaches_frameOf he, ← hent]
    exact h.frame_mem hlt (by rw [hent, hpres])
  · rw [h.kernel q (by omega) hq] at he
    rw [kernPte_not_user he] at huser
    cases huser

theorem page_lt_pages {va sz : Nat} (h : va < sz) : va / PGSIZE < pages sz := by
  unfold pages
  simp only [PGSIZE]
  omega

theorem Copying.forked {sz : Nat} (h : Copying L {f | f ∈ m.free} pgdir m (pages sz) d t)
    (hn : pages sz ≤ NUPAGE) (hpres : ∀ q < pages sz, (pgdir.entry q).present = true)
    (hout : ∀ g, pgdir.Maps g → g ∉ m.free) : Forked L pgdir d sz m t := by
  have hfr : ∀ va < sz, d.pte? (va / PGSIZE) = some (d.entry (va / PGSIZE)) := fun va hva =>
    pte?_of_hasTab (hasTab_of_present (h.done _ (page_lt_pages hva)).present)
  have hown : ∀ va < sz, d.own (.page (va / PGSIZE)) = d.frameOf (va / PGSIZE) := fun va hva => by
    rw [reaches_frameOf (hfr va hva)]
    exact own_page (Nat.lt_of_lt_of_le (page_lt_pages hva) hn) (h.done _ (page_lt_pages hva)).present
  refine ⟨fun va hva => ?_, fun va hva va' hva' heq => ?_, fun va hva hc => ?_, ?_, fun g hg => ?_, ?_⟩
  · have hlt := page_lt_pages hva
    have hc := h.done _ hlt
    exact ⟨_, _, pte?_of_hasTab (hasTab_of_present (hpres _ hlt)), hfr va hva, hc.flags, hc.present, hc.bytes⟩
  · have hlt := Nat.lt_of_lt_of_le (page_lt_pages hva) hn
    have h0 : d.own (.page (va / PGSIZE)) ≠ 0 := by
      rw [hown va hva, reaches_frameOf (hfr va hva)]
      exact h.holds.solid.page _ hlt (h.done _ (page_lt_pages hva)).present
    have hinj := h.holds.pool.inj (.page (va / PGSIZE)) (.page (va' / PGSIZE))
      (by rw [hown va hva, hown va' hva', heq]) h0
    exact Place.page.inj hinj
  · refine hout _ hc ?_
    rw [reaches_frameOf (hfr va hva)]
    exact h.frame_mem (Nat.lt_of_lt_of_le (page_lt_pages hva) hn) (h.done _ (page_lt_pages hva)).present
  · intro d₀ m₀ t₀ hfree hok q h1 h2
    rw [h.kernel q h1 h2, setupkvm_kernel hfree hok h1 h2]
  · exact h.ram g (hout g hg)
  · intro ws va b
    have hdis : ∀ g, d.ReachesFrame g → ¬ pgdir.ReachesFrame g := fun g hg hg' =>
      hout g (.inr hg') (h.reaches_mem hg)
    cases b with
    | false =>
      exact load_stores (fun b => bif b then d else pgdir) false (fun g hg hg' => hdis g hg' hg) ws t.ram va
    | true => exact load_stores (fun b => bif b then d else pgdir) true hdis ws t.ram va

theorem copyuvm_spec (hfree : FreeList L m) {sz : Nat}
    (hpres : ∀ q < pages sz, (pgdir.entry q).present = true) (hout : ∀ g, pgdir.Maps g → g ∉ m.free) :
    Wp (copyuvm L pgdir sz) m (CopyEnd L {f | f ∈ m.free} pgdir m (pages sz)) fun _ => NUPAGE < pages sz := by
  unfold copyuvm
  refine (setupkvm_spec hfree.dealt hfree.allFree).bind ?_ fun _ he => he.elim
  rintro (_ | d) t ⟨hram, hr⟩
  · exact wp_pure.mpr ⟨hr, hram⟩
  · obtain ⟨-, hh, hk⟩ := hr
    have hstart : Copying L {f | f ∈ m.free} pgdir m 0 d t := by
      refine ⟨hh, hram, hk.kernel, fun q hq => absurd hq (Nat.not_lt_zero q), fun q _ hq => ?_⟩
      rw [Dir.entry, hk.user q hq]
      rfl
    have hloop := copyLoop_spec hfree.dealt (pages sz) 0 d t hstart (Nat.zero_le _)
      (fun q hq => hpres q (by omega)) fun q hq hp => hout _ (.inl ⟨q, hq, hp, rfl⟩)
    rwa [Nat.zero_add] at hloop

/-- A kernel of a hundred frames. -/
def smallLayout : Layout := ⟨300, 400, by decide, by decide, by decide⟩

/-- Three frames are free, which is not enough for the kernel's half. -/
def threeFree : Mem := ⟨[401, 402, 403], fun _ => false, fun _ _ => 0⟩

theorem smallDir_frame (h : smallDir.pte? q = some e) : e.frame ≤ 5 := by
  obtain ⟨tab, htab, rfl⟩ := Option.map_eq_some_iff.mp h
  simp only [smallDir] at htab
  split at htab
  next =>
    cases htab
    dsimp only
    split
    · decide
    · decide
  next =>
    split at htab
    next =>
      cases htab
      exact Nat.le_refl 5
    next => cases htab

end Xv6.Paging
