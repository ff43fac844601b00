import Xv6.Lib.Pool
import Xv6.Paging.Basic

/-!
# Who has which frame

A page directory holds frames at places: its own, those of its page tables, and those of
the user pages. `Holds F d S m` says that the frames of `F` are each on the free list, at
one place of `d`, or spare, where `S` are the frames that the code has in its hands. The
functions of `vm.c` keep it, and `freevm` puts all of `F` back on the free list.

A frame of the kernel's mappings is at no place: the kernel's entries are the same in
every directory.
-/

namespace Xv6.Paging

open Hoare Table Bytes Pool
open Vm (KERNBASE NPTENTRIES NUPAGE pages)

variable {L : Layout} {F S : Set Nat} {d d' : Dir} {m t : Mem} {p q f : Nat} {e : Pte}

/-- The number of pages there are addresses for. -/
abbrev NPAGE : Nat := 2 ^ 20

/-! ## Entries -/

/-- The entry for page `p`, zero where there is no page table. -/
def Dir.entry (d : Dir) (p : Nat) : Pte := (d.pte? p).getD Pte.zero

/-- The page table for page `p` is there. -/
def Dir.HasTab (d : Dir) (p : Nat) : Prop := d.pde (pdx p) ≠ none

@[simp] theorem present_zero : Pte.zero.present = false := rfl

theorem pte?_of_hasTab (h : d.HasTab p) : d.pte? p = some (d.entry p) := by
  obtain ⟨t, ht⟩ := Option.ne_none_iff_exists'.mp h
  unfold Dir.entry Dir.pte?
  rw [ht]
  rfl

theorem pte?_of_not_hasTab (h : ¬ d.HasTab p) : d.pte? p = none := by
  unfold Dir.HasTab at h
  unfold Dir.pte?
  rw [not_not.mp h]
  rfl

theorem hasTab_iff : d.HasTab p ↔ d.pte? p ≠ none := by
  constructor
  · intro h
    rw [pte?_of_hasTab h]
    exact Option.some_ne_none _
  · exact fun h => by_contra fun hn => h (pte?_of_not_hasTab hn)

theorem hasTab_of_present (h : (d.entry p).present = true) : d.HasTab p := by
  by_contra hn
  unfold Dir.entry at h
  rw [pte?_of_not_hasTab hn] at h
  cases h

theorem page_ext (hp : p < NPAGE) (hq : q < NPAGE) (h1 : pdx p = pdx q) (h2 : ptx p = ptx q) : p = q := by
  have h1 := congrArg Fin.val h1
  have h2 := congrArg Fin.val h2
  unfold pdx at h1
  unfold ptx at h2
  simp only [NPTENTRIES, NPAGE] at *
  omega

theorem lt_npage (h : p < NUPAGE) : p < NPAGE := Nat.lt_trans h (by decide)

theorem entry_setPte (hp : p < NPAGE) (hq : q < NPAGE) (h : d.HasTab p) (e : Pte) :
    (d.setPte p e).entry q = if q = p then e else d.entry q := by
  obtain ⟨t, ht⟩ := Option.ne_none_iff_exists'.mp h
  unfold Dir.entry Dir.pte? Dir.setPte
  dsimp only
  by_cases h1 : pdx q = pdx p
  · rw [h1, upd_same, ht]
    simp only [Option.map_some, Option.getD_some]
    by_cases h2 : ptx q = ptx p
    · rw [h2, upd_same, if_pos (page_ext hq hp h1 h2)]
    · rw [upd_ne _ _ h2, if_neg (by rintro rfl; exact h2 rfl)]
  · rw [upd_ne _ _ h1, if_neg (by rintro rfl; exact h1 rfl)]

theorem pde_setPte (d : Dir) (p : Nat) (e : Pte) (i : Fin NPTENTRIES) :
    ((d.setPte p e).pde i).map Tab.frame = (d.pde i).map Tab.frame := by
  unfold Dir.setPte
  dsimp only
  by_cases h : i = pdx p
  · subst h
    rw [upd_same, Option.map_map]
    rfl
  · rw [upd_ne _ _ h]

theorem hasTab_setPte : (d.setPte p e).HasTab q ↔ d.HasTab q := by
  unfold Dir.HasTab
  have h := pde_setPte d p e (pdx q)
  rw [Ne, Ne, ← Option.map_eq_none_iff, h, Option.map_eq_none_iff]

/-- The directory with an empty page table in the frame `f`. -/
def Dir.addTab (d : Dir) (p f : Nat) : Dir :=
  { d with pde := upd d.pde (pdx p) (some ⟨f, fun _ => Pte.zero⟩) }

theorem entry_addTab (h : ¬ d.HasTab p) : (d.addTab p f).entry q = d.entry q := by
  unfold Dir.HasTab at h
  unfold Dir.entry Dir.pte? Dir.addTab
  dsimp only
  by_cases h1 : pdx q = pdx p
  · rw [h1, upd_same, not_not.mp h]
    rfl
  · rw [upd_ne _ _ h1]

theorem hasTab_addTab : (d.addTab p f).HasTab q ↔ d.HasTab q ∨ pdx q = pdx p := by
  unfold Dir.HasTab Dir.addTab
  dsimp only
  by_cases h1 : pdx q = pdx p
  · rw [h1, upd_same]
    simp
  · rw [upd_ne _ _ h1]
    simp [h1]

/-! ## Places -/

/-- Where a directory has frames. -/
inductive Place where
  | dir
  | tab (i : Fin NPTENTRIES)
  | page (p : Nat)

/-- The frame at a place, zero if there is none. -/
def Dir.own (d : Dir) : Place → Nat
  | .dir => d.frame
  | .tab i => ((d.pde i).map Tab.frame).getD 0
  | .page p => if p < NUPAGE ∧ (d.entry p).present = true then (d.entry p).frame else 0

/-- The frames of `F` are on the free list, at a place, or spare. -/
structure Held (F : Set Nat) (own : Place → Nat) (S : Set Nat) (m : Mem) : Prop where
  nodup : m.free.Nodup
  free_sub : ∀ f ∈ m.free, f ∈ F
  pool : Exact own (fun f => f ∈ F ∧ f ∉ m.free) S

/-- The directory, its page tables and its user pages have frames. -/
structure Dir.Solid (d : Dir) : Prop where
  dir : d.frame ≠ 0
  tab : ∀ i t, d.pde i = some t → t.frame ≠ 0
  page : ∀ p < NUPAGE, (d.entry p).present = true → (d.entry p).frame ≠ 0

/-- The frames of `F` are on the free list, at a place of `d`, or spare. -/
structure Holds (F : Set Nat) (d : Dir) (S : Set Nat) (m : Mem) : Prop extends
    Held F d.own S m where
  solid : d.Solid

/-- The frames of `F` are frames that the allocator deals in. -/
def Dealt (L : Layout) (F : Set Nat) : Prop := ∀ f ∈ F, L.first ≤ f ∧ f < NFRAME

theorem Dealt.ne_zero (h : Dealt L F) (hf : f ∈ F) : f ≠ 0 := by
  have := (h f hf).1
  have := L.data_lt
  have := L.text_lt
  omega

theorem own_page (hp : p < NUPAGE) (h : (d.entry p).present = true) :
    d.own (.page p) = (d.entry p).frame := if_pos ⟨hp, h⟩

theorem own_page_zero (h : ¬ (p < NUPAGE ∧ (d.entry p).present = true)) : d.own (.page p) = 0 :=
  if_neg h

section

variable {own own' : Place → Nat}

theorem Held.own_mem (h : Held F own S m) {x : Place} (hx : own x ≠ 0) : own x ∈ F ∧ own x ∉ m.free :=
  h.pool.used_own hx

theorem Held.spare_mem (h : Held F own S m) (hf : f ∈ S) : f ∈ F ∧ f ∉ m.free := h.pool.used_spare hf

theorem Held.notMem_spare (h : Held F own S m) (hf : f ∈ m.free) : f ∉ S :=
  fun hs => (h.spare_mem hs).2 hf

theorem Held.of_free_eq (h : Held F own S m) (he : t.free = m.free) : Held F own S t :=
  ⟨he ▸ h.nodup, he ▸ h.free_sub, he ▸ h.pool⟩

theorem Holds.of_free_eq (h : Holds F d S m) (he : t.free = m.free) : Holds F d S t :=
  ⟨h.toHeld.of_free_eq he, h.solid⟩

/-! ## The allocator -/

theorem kalloc_spec (h : Held F own S m) (hF : Dealt L F) (E : Panic → Prop) :
    Wp kalloc m (fun r t => t.ram = m.ram ∧ (∀ f ∈ t.free, f ∈ m.free) ∧ match r with
      | none => Held F own S t
      | some f => f ∈ m.free ∧ f ∉ t.free ∧ Held F own (insert f S) t) E := by
  unfold kalloc
  rw [wp_bind, wp_get]
  split
  next f fs hfree _ =>
    rw [wp_bind, wp_set, wp_pure]
    have hnd := h.nodup
    rw [hfree] at hnd
    obtain ⟨hnew, hrest⟩ := List.nodup_cons.mp hnd
    have hmem : f ∈ m.free := by simp [hfree]
    refine ⟨rfl, fun g hg => by simp [hfree, hg], hmem, hnew, hrest,
      fun g hg => h.free_sub g (by simp [hfree, hg]), ?_⟩
    refine h.pool.alloc (fun hc => hc.2 hmem) (hF.ne_zero (h.free_sub f hmem)) fun c => ?_
    rw [hfree]
    have hfF := h.free_sub f hmem
    constructor
    · rintro ⟨h1, h2⟩
      by_cases hc : c = f
      · exact .inr hc
      · exact .inl ⟨h1, by simp [hc, h2]⟩
    · rintro (⟨h1, h2⟩ | rfl)
      · exact ⟨h1, fun hc => h2 (List.mem_cons_of_mem _ hc)⟩
      · exact ⟨hfF, hnew⟩
  next =>
    rw [wp_bind, wp_set, wp_pure]
    exact ⟨rfl, fun _ hg => hg, h.of_free_eq rfl⟩

theorem kfree_spec (h : Held F own S m) (hF : Dealt L F) (hf : f ∈ S) (E : Panic → Prop) :
    Wp (kfree L f) m (fun _ t => (∀ g, g ≠ f → t.ram g = m.ram g) ∧
      (∀ g, g ∈ t.free ↔ g = f ∨ g ∈ m.free) ∧ Held F own (S \ {f}) t) E := by
  obtain ⟨hfF, hnot⟩ := h.spare_mem hf
  have hrange := hF f hfF
  unfold kfree
  refine wp_ite (fun hc => by omega) fun _ => wp_modify.mpr ⟨fun g hg => upd_ne _ _ hg, fun g => by simp, ?_⟩
  refine ⟨List.nodup_cons.mpr ⟨hnot, h.nodup⟩, fun g hg => ?_, h.pool.free hf fun c => ?_⟩
  · rcases List.mem_cons.mp hg with rfl | hg
    · exact hfF
    · exact h.free_sub g hg
  · simp only [List.mem_cons, not_or]
    tauto

/-! ## Page tables -/

theorem kfree_place (own' : Place → Nat) (h : Held F own S m) (hF : Dealt L F) {x : Place} (hx : own x ≠ 0)
    (hzero : own' x = 0) (hrest : ∀ y, y ≠ x → own' y = own y) (E : Panic → Prop) :
    Wp (kfree L (own x)) m (fun _ t => (∀ g, g ≠ own x → t.ram g = m.ram g) ∧
      (∀ g, g ∈ t.free ↔ g = own x ∨ g ∈ m.free) ∧ Held F own' S t) E := by
  have hset : S ∪ {b | b ≠ 0 ∧ ∃ y ∈ ({x} : Set Place), own y = b} = insert (own x) S := by
    ext b
    simp only [Set.mem_union, Set.mem_ofPred_eq, Set.mem_singleton_iff, exists_eq_left, Set.mem_insert_iff]
    constructor
    · rintro (hb | ⟨-, hb⟩)
      · exact .inr hb
      · exact .inl hb.symm
    · rintro (rfl | hb)
      · exact .inr ⟨hx, rfl⟩
      · exact .inl hb
  have hrel : Held F own' (insert (own x) S) m := by
    refine ⟨h.nodup, h.free_sub, ?_⟩
    have hrel : Exact own' _ _ := h.pool.release {x} (by rintro y rfl; exact hzero) fun y hy => hrest y hy
    rwa [hset] at hrel
  have hnot : own x ∉ S := fun hs => h.pool.own_ne_spare _ hs x rfl
  refine (kfree_spec hrel hF (Set.mem_insert _ _) E).imp ?_
  rintro _ t ⟨h1, h2, h3⟩
  rw [Set.insert_sdiff_self_of_notMem hnot] at h3
  exact ⟨h1, h2, h3⟩

end

theorem Dir.Solid.tab_setPte (h : d.Solid) (p : Nat) (e : Pte) (i : Fin NPTENTRIES) (tab : Tab)
    (hi : (d.setPte p e).pde i = some tab) : tab.frame ≠ 0 := by
  have hmap := pde_setPte d p e i
  rw [hi] at hmap
  obtain ⟨tab', ht', he⟩ := Option.map_eq_some_iff.mp hmap.symm
  rw [← he]
  exact h.tab i tab' ht'

theorem Dir.Solid.setPte (h : d.Solid) (hp : p < NUPAGE) (ht : d.HasTab p) {e : Pte}
    (he : e.present = true → e.frame ≠ 0) : (d.setPte p e).Solid := by
  refine ⟨h.dir, h.tab_setPte p e, fun q hq hpres => ?_⟩
  rw [entry_setPte (lt_npage hp) (lt_npage hq) ht] at hpres ⊢
  split at hpres
  next hc => rw [if_pos hc]; exact he hpres
  next hc => rw [if_neg hc]; exact h.page q hq hpres

theorem Holds.addTab (h : Holds F d S m) (ht : ¬ d.HasTab p) (hf : f ∈ S) :
    Holds F (d.addTab p f) (S \ {f}) m := by
  have ht' := ht
  unfold Dir.HasTab at ht
  have hf0 : f ≠ 0 := h.pool.spare_ne_zero f hf
  refine ⟨⟨h.nodup, h.free_sub, h.pool.assign (p := .tab (pdx p)) ?_ hf ?_ fun x hx => ?_⟩,
    h.solid.dir, fun i tab hi => ?_, fun q hq hpres => ?_⟩
  · change ((d.pde (pdx p)).map Tab.frame).getD 0 = 0
    rw [not_not.mp ht]
    rfl
  · change ((upd d.pde (pdx p) _ (pdx p)).map Tab.frame).getD 0 = f
    rw [upd_same]
    rfl
  · cases x with
    | dir => rfl
    | tab i =>
      change ((upd d.pde (pdx p) _ i).map Tab.frame).getD 0 = _
      rw [upd_ne _ _ (by rintro rfl; exact hx rfl)]
      rfl
    | page q =>
      unfold Dir.own
      dsimp only
      rw [entry_addTab ht']
  · change upd d.pde (pdx p) _ i = some tab at hi
    by_cases he : i = pdx p
    · rw [he, upd_same] at hi
      cases hi
      exact hf0
    · rw [upd_ne _ _ he] at hi
      exact h.solid.tab i tab hi
  · rw [entry_addTab ht'] at hpres ⊢
    exact h.solid.page q hq hpres

theorem Holds.setPage (h : Holds F d S m) (hp : p < NUPAGE) (ht : d.HasTab p)
    (hno : (d.entry p).present = false) (hf : f ∈ S) {e : Pte} (he : e.frame = f)
    (hpres : e.present = true) : Holds F (d.setPte p e) (S \ {f}) m := by
  refine ⟨⟨h.nodup, h.free_sub, h.pool.assign (p := .page p) ?_ hf ?_ fun x hx => ?_⟩,
    h.solid.setPte hp ht fun _ => he.symm ▸ h.pool.spare_ne_zero f hf⟩
  · exact own_page_zero fun hc => by rw [hno] at hc; cases hc.2
  · have hent := entry_setPte (lt_npage hp) (lt_npage hp) ht e
    rw [if_pos rfl] at hent
    rw [own_page hp (by rw [hent]; exact hpres), hent, he]
  · cases x with
    | dir => rfl
    | tab i =>
      unfold Dir.own
      dsimp only
      rw [pde_setPte]
    | page q =>
      unfold Dir.own
      dsimp only
      by_cases hq : q < NUPAGE
      · have hne : q ≠ p := by
          rintro rfl
          exact hx rfl
        rw [entry_setPte (lt_npage hp) (lt_npage hq) ht, if_neg hne]
      · rw [if_neg fun hc => hq hc.1, if_neg fun hc => hq hc.1]

theorem Holds.setKernel (h : Holds F d S m) (hp : NUPAGE ≤ p) (hlt : p < NPAGE) (ht : d.HasTab p)
    (e : Pte) : Holds F (d.setPte p e) S m := by
  have hent : ∀ q < NUPAGE, (d.setPte p e).entry q = d.entry q := fun q hq => by
    rw [entry_setPte hlt (lt_npage hq) ht, if_neg (Nat.ne_of_lt (Nat.lt_of_lt_of_le hq hp))]
  refine ⟨⟨h.nodup, h.free_sub, h.pool.congr (fun x => ?_) fun _ => Iff.rfl⟩, h.solid.dir,
    h.solid.tab_setPte p e, fun q hq hpres => ?_⟩
  on_goal 2 =>
    rw [hent q hq] at hpres ⊢
    exact h.solid.page q hq hpres
  cases x with
  | dir => rfl
  | tab i =>
    unfold Dir.own
    dsimp only
    rw [pde_setPte]
  | page q =>
    unfold Dir.own
    dsimp only
    by_cases hq : q < NUPAGE
    · rw [hent q hq]
    · rw [if_neg fun hc => hq hc.1, if_neg fun hc => hq hc.1]

theorem walkpgdir_spec (h : Holds F d S m) (hF : Dealt L F) (p : Nat) (E : Panic → Prop) :
    Wp (walkpgdir d p) m (fun r t => t.ram = m.ram ∧ (∀ f ∈ t.free, f ∈ m.free) ∧ match r with
      | none => Holds F d S t
      | some d' => Holds F d' S t ∧ d'.HasTab p ∧ d'.frame = d.frame ∧
          (∀ q, d'.entry q = d.entry q) ∧ ∀ q, d'.HasTab q ↔ d.HasTab q ∨ pdx q = pdx p) E := by
  unfold walkpgdir
  cases ht : d.pde (pdx p) with
  | some tab =>
    have hhas : d.HasTab p := by
      unfold Dir.HasTab
      rw [ht]
      exact Option.some_ne_none _
    refine wp_pure.mpr ⟨rfl, fun _ hf => hf, h, hhas, rfl, fun _ => rfl, fun q => ?_⟩
    refine ⟨.inl, fun hq => hq.elim id fun he => ?_⟩
    unfold Dir.HasTab at hhas ⊢
    rwa [he]
  | none =>
    have hno : ¬ d.HasTab p := fun hc => hc ht
    refine (kalloc_spec h.toHeld hF E).seq ?_
    rintro (_ | f) t ⟨hram, hsub, hr⟩
    · exact wp_pure.mpr ⟨hram, hsub, hr, h.solid⟩
    · obtain ⟨hfm, -, hr⟩ := hr
      have hadd := Holds.addTab ⟨hr, h.solid⟩ hno (Set.mem_insert f S)
      rw [Set.insert_sdiff_self_of_notMem (h.notMem_spare hfm)] at hadd
      exact wp_pure.mpr ⟨hram, hsub, hadd, hasTab_addTab.mpr (.inr rfl), rfl,
        fun q => entry_addTab hno, fun q => hasTab_addTab⟩

end Xv6.Paging
