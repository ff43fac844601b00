import Mathlib.Data.Finset.Max
import Xv6.Lib.Blocks
import Xv6.Umalloc.Basic

/-!
# The integrity of the heap

The headers of the free blocks, with `base`, form the ring, and the free blocks and those
of the program tile the memory that `sbrk` gave (`Lists`). `free` is an insertion into
the ring and at most two joins of blocks that touch, after which no two free blocks touch.
`malloc` takes a block out of the ring or cuts its tail off. Its second round ends at a
block that is large enough, since the new memory is then in the block at `freep` or in the
one after it.
-/

namespace Xv6.Umalloc

open Table RingList Blocks Trans

variable {base bp p x y nu : Nat} {h h' : Heap} {F L : Finset Nat}

/-- The memory obtained from `sbrk`. -/
def Heap.Mem (h : Heap) (c : Nat) : Prop := ∃ r ∈ h.regions, r.1 ≤ c ∧ c < r.1 + r.2

/-- The free blocks `F`, in the ring, and the other blocks `L`. -/
structure Lists (base : Nat) (h : Heap) (F L : Finset Nat) : Prop where
  links : Ringed F base h.ptr
  disj : Disjoint F L
  zero : h.size base = 0
  pos : ∀ x ∈ F ∪ L, x ≠ base → 0 < h.size x
  whole : HEADER ∣ h.bytes
  tiles : Tiles HEADER (F ∪ L) h.size h.Mem (h.bytes / HEADER)
  above : ∀ r ∈ h.regions, base + HEADER ≤ r.1

namespace Lists

theorem congr (hl : Lists base h F L) (hptr : ∀ x ∈ F, h'.ptr x = h.ptr x)
    (hsize : ∀ x ∈ F ∪ L, h'.size x = h.size x) (hreg : h'.regions = h.regions) :
    Lists base h' F L where
  links := hl.links.congr hptr
  disj := hl.disj
  zero := by rw [hsize base (Finset.mem_union_left L hl.links.base), hl.zero]
  pos x hx := by
    rw [hsize x hx]
    exact hl.pos x hx
  whole := by
    rw [Heap.bytes, hreg]
    exact hl.whole
  tiles := by
    have hmem : h'.Mem = h.Mem := by
      funext c
      rw [Heap.Mem, Heap.Mem, hreg]
    rw [hmem, Heap.bytes, hreg]
    exact hl.tiles.congr hsize
  above := by
    rw [hreg]
    exact hl.above

theorem base_lt (hl : Lists base h F L) (hx : x ∈ F ∪ L) (hne : x ≠ base) : base + HEADER ≤ x := by
  obtain ⟨r, hr, hle, -⟩ := hl.tiles.start (by decide) hx (hl.pos x hx hne)
  exact (hl.above r hr).trans hle

theorem ne_base (hl : Lists base h F L) (hx : x ∈ L) : x ≠ base := by
  rintro rfl
  exact Finset.disjoint_left.mp hl.disj hl.links.base hx

theorem notMem_right (hl : Lists base h F L) (hx : x ∈ F) : x ∉ L :=
  Finset.disjoint_left.mp hl.disj hx

theorem ahead_lt_fuel (hl : Lists base h F L) (t p : Nat) : Ringed.ahead F t p < h.fuel := by
  have h₁ := Ringed.ahead_le F t p
  have h₂ := hl.tiles.card_le (Finset.subset_union_left) (b := base)
    fun x hx hne => hl.pos x (Finset.mem_union_left L hx) hne
  have h₃ := Nat.div_le_self h.bytes HEADER
  rw [Heap.fuel]
  omega

/-! ## Joins -/

/-- Two blocks of the ring that touch. -/
def Touch (h : Heap) (F : Finset Nat) (x y : Nat) : Prop :=
  x ∈ F ∧ y ∈ F ∧ x ≠ y ∧ x + HEADER * h.size x = y

/-- The block at `bp` put into the ring after `p`. -/
def link (h : Heap) (bp p : Nat) : Heap := { h with ptr := upd (upd h.ptr bp (h.ptr p)) p bp }

/-- The block at `x` joined to the next one. -/
def merge (h : Heap) (x : Nat) : Heap :=
  { h with
    size := upd h.size x (h.size x + h.size (h.ptr x))
    ptr := upd h.ptr x (h.ptr (h.ptr x)) }

theorem size_merge (h : Heap) (x : Nat) : (merge h x).size x = h.size x + h.size (h.ptr x) :=
  upd_same ..

theorem size_merge_ne (h : Heap) {u : Nat} (hu : u ≠ x) : (merge h x).size u = h.size u :=
  upd_ne _ _ hu

section

variable (hl : Lists base h F L) (hbp : bp ∈ L) (hp : p ∈ F) (hlt : p < bp)
  (hgap : ∀ y ∈ F, p < y → bp < y)

include hl hbp hp hlt hgap

theorem link_lists : Lists base (link h bp p) (insert bp F) (L.erase bp) := by
  have hunion : insert bp F ∪ L.erase bp = F ∪ L := by
    rw [Finset.insert_union, ← Finset.union_insert, Finset.insert_erase hbp]
  refine ⟨hl.links.insert hp hlt hgap, ?_, hl.zero, by rw [hunion]; exact hl.pos, hl.whole, ?_, hl.above⟩
  · rw [Finset.disjoint_insert_left]
    exact ⟨Finset.notMem_erase bp L, hl.disj.mono_right (Finset.erase_subset bp L)⟩
  · rw [hunion]
    exact hl.tiles

theorem touch_link (ht : Touch (link h bp p) (insert bp F) x y) :
    Touch h F x y ∨ x = bp ∧ y = h.ptr p ∨ x = p ∧ y = bp := by
  obtain ⟨hx, hy, hne, he⟩ := ht
  have hbpS : bp ∈ F ∪ L := Finset.mem_union_right F hbp
  have hpos := hl.pos bp hbpS (hl.ne_base hbp)
  change x + HEADER * h.size x = y at he
  rcases Finset.mem_insert.mp hx with rfl | hxF
  · rcases Finset.mem_insert.mp hy with rfl | hyF
    · exact absurd rfl hne
    · -- nothing lies between the block and the one after `p`
      obtain ⟨hup, hle⟩ := hl.links.le_of_lt hp hyF (by omega)
      have hnext := hl.links.mem p hp
      have := hl.tiles.apart x hbpS _ (Finset.mem_union_left L hnext) (hgap _ hnext hup)
      exact Or.inr (Or.inl ⟨rfl, by omega⟩)
  · rcases Finset.mem_insert.mp hy with rfl | hyF
    · by_cases hxp : x = p
      · exact Or.inr (Or.inr ⟨hxp, rfl⟩)
      · exfalso
        have hxlt : x < p := by
          by_contra hc
          have := hgap x hxF (by omega)
          omega
        have := hl.tiles.apart x (Finset.mem_union_left L hxF) p (Finset.mem_union_left L hp) hxlt
        omega
    · exact Or.inl ⟨hxF, hyF, hne, he⟩

end

section

variable (hl : Lists base h F L) (ht : Touch h F x (h.ptr x))

include hl ht

theorem merge_ne : h.ptr x ≠ base ∧ x ≠ base := by
  obtain ⟨hx, hy, hne, he⟩ := ht
  have hle := hl.links.least x hx
  refine ⟨fun hc => by omega, ?_⟩
  rintro rfl
  rw [hl.zero] at he
  omega

theorem merge_lists : Lists base (merge h x) (F.erase (h.ptr x)) L := by
  obtain ⟨hybase, hxbase⟩ := hl.merge_ne ht
  obtain ⟨hx, hy, hne, he⟩ := ht
  have hunion : F.erase (h.ptr x) ∪ L = (F ∪ L).erase (h.ptr x) := by
    rw [Finset.erase_union_distrib, Finset.erase_eq_of_notMem (hl.notMem_right hy)]
  refine ⟨hl.links.erase hx hybase, hl.disj.mono_left (Finset.erase_subset _ F), ?_, ?_, hl.whole, ?_,
    hl.above⟩
  · exact (upd_ne _ _ hxbase.symm).trans hl.zero
  · intro z hz hzb
    rw [hunion] at hz
    have hpos := hl.pos z (Finset.mem_of_mem_erase hz) hzb
    by_cases hzx : z = x
    · rw [hzx, size_merge]
      rw [hzx] at hpos
      omega
    · rwa [size_merge_ne h hzx]
  · rw [hunion]
    exact hl.tiles.merge (Finset.mem_union_left L hx) (Finset.mem_union_left L hy) hne he

omit hl in
theorem touch_merge {u v : Nat} (ht' : Touch (merge h x) (F.erase (h.ptr x)) u v) :
    u ≠ x ∧ v ≠ h.ptr x ∧ Touch h F u v ∨ u = x ∧ Touch h F (h.ptr x) v := by
  obtain ⟨hx, hy, hne, he⟩ := ht
  obtain ⟨hu, hv, huv, he'⟩ := ht'
  obtain ⟨-, hu⟩ := Finset.mem_erase.mp hu
  obtain ⟨hvy, hv⟩ := Finset.mem_erase.mp hv
  by_cases hux : u = x
  · rw [hux, size_merge, Nat.mul_add] at he'
    exact Or.inr ⟨hux, hy, hv, Ne.symm hvy, by omega⟩
  · rw [size_merge_ne h hux] at he'
    exact Or.inl ⟨hux, hvy, hu, hv, huv, he'⟩

end

/-! ## `free` -/

section

variable (hl : Lists base h F L)

include hl

theorem scan_between (hbp : bp ∈ L) (hfreep : h.freep ∈ F) :
    ∃ p ∈ F, scan (h.between bp) h.ptr h.fuel h.freep = some p ∧ p < bp ∧ ∀ y ∈ F, p < y → bp < y := by
  have hbpF : bp ∉ F := fun hc => hl.notMem_right hc hbp
  have hbase : base < bp := by
    have := hl.base_lt (Finset.mem_union_right F hbp) (hl.ne_base hbp)
    exact Nat.lt_of_lt_of_le (Nat.lt_add_of_pos_right (by decide)) this
  have hne : (F.filter (· < bp)).Nonempty := ⟨base, Finset.mem_filter.mpr ⟨hl.links.base, hbase⟩⟩
  obtain ⟨t, ht, hmax⟩ := Finset.exists_max_image _ id hne
  obtain ⟨htF, htlt⟩ := Finset.mem_filter.mp ht
  have hstop : h.between bp t = true := by
    rw [Heap.between, decide_eq_true_eq]
    by_cases hup : t < h.ptr t
    · have hnext := hl.links.mem t htF
      refine Or.inl ⟨htlt, ?_⟩
      by_contra hc
      have hlt : h.ptr t < bp := Nat.lt_of_le_of_ne (Nat.not_lt.mp hc) fun he => hbpF (he ▸ hnext)
      have : h.ptr t ≤ t := hmax _ (Finset.mem_filter.mpr ⟨hnext, hlt⟩)
      omega
    · exact Or.inr ⟨Nat.not_lt.mp hup, Or.inl htlt⟩
  obtain ⟨p, hp, hscan, hstop⟩ := hl.links.scan_some htF hstop _ _ hfreep (hl.ahead_lt_fuel t _)
  rw [Heap.between, decide_eq_true_eq] at hstop
  refine ⟨p, hp, hscan, ?_⟩
  rcases hstop with ⟨hlt, hgt⟩ | ⟨hwrap, hor⟩
  · exact ⟨hlt, fun y hy hpy => Nat.lt_of_lt_of_le hgt (hl.links.le_of_lt hp hy hpy).2⟩
  · obtain ⟨hb, hmax⟩ := hl.links.wrap p hp (Nat.not_lt.mpr hwrap)
    refine ⟨?_, fun y hy hpy => absurd hpy (Nat.not_lt.mpr (hmax y hy))⟩
    omega

/-- No two blocks of the ring touch. -/
def Loose (h : Heap) (F : Finset Nat) : Prop := ∀ x y, ¬ Touch h F x y

theorem joinUpper_lists (hloose : Loose h F) (hbp : bp ∈ L) (hp : p ∈ F)
    (hlt : p < bp) (hgap : ∀ y ∈ F, p < y → bp < y) :
    ∃ F', Lists base { joinUpper h bp p with ptr := upd (joinUpper h bp p).ptr p bp } F' (L.erase bp) ∧
      bp ∈ F' ∧ p ∈ F' ∧ (∀ u v, Touch (joinUpper h bp p) F' u v → u = p ∧ v = bp) ∧
      h.size bp ≤ (joinUpper h bp p).size bp ∧ ∀ u, u ≠ bp → (joinUpper h bp p).size u = h.size u := by
  have hlink := hl.link_lists hbp hp hlt hgap
  have htouch : ∀ u v, Touch (link h bp p) (insert bp F) u v →
      u = bp ∧ v = h.ptr p ∨ u = p ∧ v = bp :=
    fun u v ht => (hl.touch_link hbp hp hlt hgap ht).resolve_left (hloose u v)
  have hbpp : bp ≠ p := by omega
  have hptr : (link h bp p).ptr bp = h.ptr p := (upd_ne _ _ hbpp).trans (upd_same ..)
  by_cases hadj : bp + HEADER * h.size bp = h.ptr p
  · have hnext := hl.links.mem p hp
    have hpos : 0 < HEADER * h.size bp :=
      Nat.mul_pos (by decide) (hl.pos bp (Finset.mem_union_right F hbp) (hl.ne_base hbp))
    have hyp : h.ptr p ≠ p := by omega
    have hyb : h.ptr p ≠ bp := by omega
    have htb : Touch (link h bp p) (insert bp F) bp ((link h bp p).ptr bp) := by
      rw [hptr]
      exact ⟨Finset.mem_insert_self bp F, Finset.mem_insert_of_mem hnext, hyb.symm, hadj⟩
    have hmerge := hlink.merge_lists htb
    have hjoin : merge (link h bp p) bp =
        { joinUpper h bp p with ptr := upd (joinUpper h bp p).ptr p bp } := by
      rw [merge, hptr, joinUpper, if_pos hadj]
      have hy : (link h bp p).ptr (h.ptr p) = h.ptr (h.ptr p) :=
        (upd_ne _ _ hyp).trans (upd_ne _ _ hyb)
      rw [hy, link]
      dsimp only
      rw [upd_comm _ _ _ hbpp.symm, upd_upd]
    rw [hptr] at hmerge
    refine ⟨(insert bp F).erase (h.ptr p), hjoin ▸ hmerge, ?_, ?_, fun u v ht => ?_, ?_, fun u hu => ?_⟩
    · exact Finset.mem_erase.mpr ⟨hyb.symm, Finset.mem_insert_self bp F⟩
    · exact Finset.mem_erase.mpr ⟨hyp.symm, Finset.mem_insert_of_mem hp⟩
    · have ht' : Touch (merge (link h bp p) bp) ((insert bp F).erase ((link h bp p).ptr bp)) u v := by
        rw [hjoin, hptr]
        exact ht
      rcases touch_merge htb ht' with ⟨hu, -, h₁⟩ | ⟨-, h₁⟩
      · exact (htouch u v h₁).resolve_left fun hc => hu hc.1
      · rw [hptr] at h₁
        rcases htouch _ v h₁ with hc | hc
        · exact absurd hc.1 hyb
        · exact absurd hc.1 hyp
    · rw [joinUpper, if_pos hadj]
      dsimp only
      rw [upd_same]
      omega
    · rw [joinUpper, if_pos hadj]
      exact upd_ne _ _ hu
  · rw [joinUpper, if_neg hadj]
    refine ⟨insert bp F, hlink, Finset.mem_insert_self bp F, Finset.mem_insert_of_mem hp,
      fun u v ht => ?_, Nat.le_refl _, fun _ _ => rfl⟩
    refine (htouch u v ht).resolve_left ?_
    rintro ⟨rfl, rfl⟩
    exact hadj ht.2.2.2

/-- What a call of `free` leaves. -/
structure Freed (base : Nat) (h : Heap) (L : Finset Nat) (bp : Nat) (h' : Heap) (F : Finset Nat) :
    Prop where
  lists : Lists base h' F (L.erase bp)
  loose : Loose h' F
  freep : h'.freep ∈ F
  size : ∀ u ∈ L.erase bp, h'.size u = h.size u
  live : h'.live = h.live
  want : h'.want = h.want
  regions : h'.regions = h.regions
  near : h.size bp ≤ h'.size (h'.ptr h'.freep) ∨ h.size bp ≤ h'.size h'.freep

theorem free (hloose : Loose h F) (hbp : bp ∈ L) (hfreep : h.freep ∈ F) :
    ∃ h' F', Umalloc.free h (bp + HEADER) = some h' ∧ Freed base h L bp h' F' := by
  obtain ⟨p, hp, hscan, hlt, hgap⟩ := hl.scan_between hbp hfreep
  obtain ⟨F', hl', hbpF, hpF, htouch, hle, hsize⟩ := hl.joinUpper_lists hloose hbp hp hlt hgap
  have hbpp : bp ≠ p := by omega
  have hfree : Umalloc.free h (bp + HEADER) =
      some { joinLower (joinUpper h bp p) bp p with freep := p } := by
    rw [Umalloc.free, Nat.add_sub_cancel]
    dsimp only
    rw [hscan]
    rfl
  have hghost : (joinUpper h bp p).live = h.live ∧ (joinUpper h bp p).want = h.want ∧
      (joinUpper h bp p).regions = h.regions := by
    unfold joinUpper
    split
    · exact ⟨rfl, rfl, rfl⟩
    · exact ⟨rfl, rfl, rfl⟩
  have hne : ∀ u ∈ L.erase bp, u ≠ bp ∧ u ≠ p := fun u hu =>
    ⟨Finset.ne_of_mem_erase hu, fun hc => hl.notMem_right hp (hc ▸ Finset.mem_of_mem_erase hu)⟩
  refine ⟨_, ?_, hfree, ?_⟩
  · exact if p + HEADER * (joinUpper h bp p).size p = bp then F'.erase bp else F'
  by_cases hadj : p + HEADER * (joinUpper h bp p).size p = bp
  · rw [if_pos hadj, joinLower, if_pos hadj]
    -- the block is joined to the one before it
    let g : Heap := { joinUpper h bp p with ptr := upd (joinUpper h bp p).ptr p bp }
    have hgp : g.ptr p = bp := upd_same ..
    have hgb : g.ptr bp = (joinUpper h bp p).ptr bp := upd_ne _ _ hbpp
    have htb : Touch g F' p (g.ptr p) := by
      rw [hgp]
      exact ⟨hpF, hbpF, hbpp.symm, hadj⟩
    have hmerge := hl'.merge_lists htb
    have htm := fun u v => touch_merge (u := u) (v := v) htb
    rw [show (Heap.mk _ _ _ _ _ _).ptr p = bp from hgp] at hmerge htm
    have hjoin : merge g p = { joinUpper h bp p with
        size := upd (joinUpper h bp p).size p
          ((joinUpper h bp p).size p + (joinUpper h bp p).size bp)
        ptr := upd (joinUpper h bp p).ptr p ((joinUpper h bp p).ptr bp) } := by
      rw [merge, hgp, hgb]
      dsimp only [g]
      rw [upd_upd]
    refine ⟨(hjoin ▸ hmerge).congr (fun _ _ => rfl) (fun _ _ => rfl) rfl, fun u v ht => ?_, ?_,
      fun u hu => ?_, hghost.1, hghost.2.1, hghost.2.2, Or.inr ?_⟩
    · have ht' : Touch (merge g p) (F'.erase bp) u v := by
        rw [hjoin]
        exact ht
      rcases htm u v ht' with ⟨hu, -, h₁⟩ | ⟨-, h₁⟩
      · exact hu (htouch u v h₁).1
      · exact hbpp (htouch bp v h₁).1
    · exact Finset.mem_erase.mpr ⟨hbpp.symm, hpF⟩
    · exact (upd_ne _ _ (hne u hu).2).trans (hsize u (hne u hu).1)
    · dsimp only
      rw [upd_same]
      omega
  · rw [if_neg hadj, joinLower, if_neg hadj]
    refine ⟨hl'.congr (fun _ _ => rfl) (fun _ _ => rfl) rfl, fun u v ht => ?_, hpF,
      fun u hu => hsize u (hne u hu).1, hghost.1, hghost.2.1, hghost.2.2, Or.inl ?_⟩
    · have ht' : Touch (joinUpper h bp p) F' u v := ht
      obtain ⟨rfl, rfl⟩ := htouch u v ht'
      exact hadj ht.2.2.2
    · dsimp only
      rw [upd_same]
      exact hle

/-! ## `malloc` -/

/-- What `take` leaves: a new block of the program. -/
structure Taken (base : Nat) (h : Heap) (L : Finset Nat) (nunits : Nat) (h' : Heap) (F : Finset Nat)
    (x : Nat) : Prop where
  lists : Lists base h' F (insert x L)
  loose : Loose h' F
  freep : h'.freep ∈ F
  new : x ∉ L ∧ h'.size x = nunits
  size : ∀ u ∈ L, h'.size u = h.size u
  live : h'.live = h.live
  want : h'.want = h.want

theorem take (hloose : Loose h F) (hp : p ∈ F) (hnu : 0 < nu)
    (hle : nu ≤ h.size (h.ptr p)) :
    ∃ F' x, (Umalloc.take h nu p).2 = x + HEADER ∧ Taken base h L nu (Umalloc.take h nu p).1 F' x := by
  have hnext := hl.links.mem p hp
  have hnextS := Finset.mem_union_left L hnext
  have hbase : h.ptr p ≠ base := by
    intro hc
    rw [hc, hl.zero] at hle
    omega
  rw [Umalloc.take]
  dsimp only
  by_cases heq : h.size (h.ptr p) = nu
  · rw [if_pos heq]
    have hunion : F.erase (h.ptr p) ∪ insert (h.ptr p) L = F ∪ L := by
      rw [Finset.union_insert, ← Finset.insert_union, Finset.insert_erase hnext]
    refine ⟨F.erase (h.ptr p), h.ptr p, rfl, ⟨hl.links.erase hp hbase, ?_, hl.zero, ?_, hl.whole, ?_,
      hl.above⟩, fun u v ht => ?_, ?_, ⟨hl.notMem_right hnext, heq⟩, fun _ _ => rfl, rfl, rfl⟩
    · rw [Finset.disjoint_insert_right]
      exact ⟨Finset.notMem_erase _ F, hl.disj.mono_left (Finset.erase_subset _ F)⟩
    · rw [hunion]
      exact hl.pos
    · rw [hunion]
      exact hl.tiles
    · exact hloose u v ⟨Finset.mem_of_mem_erase ht.1, Finset.mem_of_mem_erase ht.2.1, ht.2.2⟩
    · refine Finset.mem_erase.mpr ⟨fun hc => hbase ?_, hp⟩
      exact (hl.links.wrap p hp (by rw [← hc]; exact Nat.lt_irrefl p)).1
  · rw [if_neg heq]
    have hlt : nu < h.size (h.ptr p) := Nat.lt_of_le_of_ne hle (Ne.symm heq)
    have hkpos : 0 < HEADER * nu := Nat.mul_pos (by decide) hnu
    have hjpos : 0 < HEADER * (h.size (h.ptr p) - nu) := Nat.mul_pos (by decide) (by omega)
    have hlen : HEADER * h.size (h.ptr p) = HEADER * (h.size (h.ptr p) - nu) + HEADER * nu := by
      rw [← Nat.mul_add, Nat.sub_add_cancel hle]
    have hq : h.ptr p + HEADER * (h.size (h.ptr p) - nu) ∉ F ∪ L :=
      hl.tiles.notMem hnextS (by omega) (by omega)
    have hqp : h.ptr p ≠ h.ptr p + HEADER * (h.size (h.ptr p) - nu) := by omega
    have hunion : F ∪ insert (h.ptr p + HEADER * (h.size (h.ptr p) - nu)) L =
        insert (h.ptr p + HEADER * (h.size (h.ptr p) - nu)) (F ∪ L) := Finset.union_insert ..
    have htiles := hl.tiles.split (by decide) hnextS hnu hlt
    generalize hqdef : h.ptr p + HEADER * (h.size (h.ptr p) - nu) = q at hq hqp hunion htiles
    have hsize : ∀ u ∈ F ∪ L, u ≠ h.ptr p →
        upd (upd h.size (h.ptr p) (h.size (h.ptr p) - nu)) q nu u = h.size u := by
      intro u hu hne
      have huq : u ≠ q := fun hc => hq (hc ▸ hu)
      rw [upd_ne _ _ huq, upd_ne _ _ hne]
    have hsizep : upd (upd h.size (h.ptr p) (h.size (h.ptr p) - nu)) q nu (h.ptr p) =
        h.size (h.ptr p) - nu := by
      rw [upd_ne _ _ hqp, upd_same]
    refine ⟨F, q, rfl, ⟨hl.links, ?_, ?_, fun u hu hub => ?_, hl.whole, ?_, hl.above⟩, fun u v ht => ?_,
      hp, ⟨fun hc => hq (Finset.mem_union_right F hc), upd_same ..⟩, fun u hu => ?_, rfl, rfl⟩
    · rw [Finset.disjoint_insert_right]
      exact ⟨fun hc => hq (Finset.mem_union_left L hc), hl.disj⟩
    · exact (hsize base (Finset.mem_union_left L hl.links.base) hbase.symm).trans hl.zero
    · rw [hunion] at hu
      rcases Finset.mem_insert.mp hu with rfl | huS
      · dsimp only
        rwa [upd_same]
      · by_cases hup : u = h.ptr p
        · subst hup
          dsimp only
          rw [hsizep]
          omega
        · dsimp only
          rw [hsize u huS hup]
          exact hl.pos u huS hub
    · rw [hunion]
      exact htiles
    · obtain ⟨hu, hv, huv, he⟩ := ht
      dsimp only at he
      by_cases hup : u = h.ptr p
      · -- the rest of the block ends where the new one starts
        rw [hup, hsizep, hqdef] at he
        exact hq (Finset.mem_union_left L (he ▸ hv))
      · rw [hsize u (Finset.mem_union_left L hu) hup] at he
        exact hloose u v ⟨hu, hv, huv, he⟩
    · exact hsize u (Finset.mem_union_right F hu) fun hc => hl.notMem_right hnext (hc ▸ hu)

theorem grow {a : Nat} (hfresh : Fresh base h a (coreBytes nu))
    (hexact : coreBytes nu = HEADER * coreUnits nu) (hpos : 0 < coreUnits nu) : a ∉ F ∪ L ∧ Lists base
        { h with size := upd h.size a (coreUnits nu), regions := (a, coreBytes nu) :: h.regions }
        F (insert a L) := by
  obtain ⟨habove, hapart⟩ := hfresh
  have hbase : base ≠ a := by
    intro hc
    rw [hc] at habove
    exact absurd habove (Nat.not_le.mpr (Nat.lt_add_of_pos_right (by decide)))
  have hmem : ∀ c, a ≤ c → c < a + HEADER * coreUnits nu → ¬ h.Mem c := by
    rintro c h₁ h₂ ⟨r, hr, h₃, h₄⟩
    rw [← hexact] at h₂
    rcases hapart r hr with h₅ | h₅ <;> omega
  have hposS : ∀ x ∈ F ∪ L, a ≤ x → 0 < h.size x := by
    intro x hx hle
    refine hl.pos x hx fun hc => ?_
    rw [hc] at hle
    exact absurd (habove.trans hle) (Nat.not_le.mpr (Nat.lt_add_of_pos_right (by decide)))
  have haS : a ∉ F ∪ L := by
    intro ha
    refine hmem a (Nat.le_refl a) (Nat.lt_add_of_pos_right (Nat.mul_pos (by decide) hpos)) ?_
    exact hl.tiles.start (by decide) ha (hposS a ha (Nat.le_refl a))
  have hbytes : (coreBytes nu + h.bytes) / HEADER = h.bytes / HEADER + coreUnits nu := by
    rw [hexact, Nat.mul_add_div (by decide), Nat.add_comm]
  refine ⟨haS, hl.links, ?_, (upd_ne _ _ hbase).trans hl.zero, fun x hx hxb => ?_, ?_, ?_, ?_⟩
  · rw [Finset.disjoint_insert_right]
    exact ⟨fun hc => haS (Finset.mem_union_left L hc), hl.disj⟩
  · rw [Finset.union_insert] at hx
    rcases Finset.mem_insert.mp hx with rfl | hxS
    · dsimp only
      rwa [upd_same]
    · have hxa : x ≠ a := fun hc => haS (hc ▸ hxS)
      dsimp only
      rw [upd_ne _ _ hxa]
      exact hl.pos x hxS hxb
  · rw [Heap.bytes, List.map_cons, List.sum_cons]
    exact (Nat.dvd_add_right ⟨_, hexact⟩).mpr hl.whole
  · rw [Finset.union_insert, Heap.bytes, List.map_cons, List.sum_cons]
    dsimp only
    rw [← Heap.bytes, hbytes]
    refine hl.tiles.add (by decide) hpos hmem hposS ?_ ?_
    · rintro c ⟨r, hr, hc⟩
      exact ⟨r, List.mem_cons_of_mem _ hr, hc⟩
    · intro c h₁ h₂
      rw [← hexact] at h₂
      exact ⟨_, List.mem_cons_self, h₁, h₂⟩
  · intro r hr
    rcases List.mem_cons.mp hr with rfl | hr
    · exact habove
    · exact hl.above r hr

theorem scan_enough (nu : Nat) (hfreep : h.freep ∈ F) :
    ∃ q ∈ F, scan (h.enough nu) h.ptr h.fuel h.freep = some q ∧ h.enough nu q = true := by
  obtain ⟨t, ht, hnext⟩ := hl.links.exists_pred hfreep
  have hstop : h.enough nu t = true := by
    rw [Heap.enough, decide_eq_true_eq]
    exact Or.inr hnext
  exact hl.links.scan_some ht hstop _ _ hfreep (hl.ahead_lt_fuel t _)

theorem secondRound (hloose : Loose h F) (hfreep : h.freep ∈ F) (hnu : 0 < nu)
    (hnear : nu ≤ h.size (h.ptr h.freep) ∨ nu ≤ h.size h.freep) :
    ∃ h' r F' x, mallocLoop nu [] h = some (h', r) ∧ r = x + HEADER ∧ Taken base h L nu h' F' x := by
  obtain ⟨q, hq, hscan, hstop⟩ := hl.scan_enough nu hfreep
  have hfits : nu ≤ h.size (h.ptr q) := by
    rw [Heap.enough, decide_eq_true_eq] at hstop
    rcases hnear with hnear | hnear
    · -- the first block of the round is large enough
      have hfirst : h.enough nu h.freep = true := by
        rw [Heap.enough, decide_eq_true_eq]
        exact Or.inl hnear
      rw [Heap.fuel, scan, if_pos hfirst] at hscan
      cases hscan
      exact hnear
    · rcases hstop with hstop | hstop
      · exact hstop
      · rwa [hstop]
  obtain ⟨F', x, hr, htaken⟩ := hl.take hloose hq hnu hfits
  refine ⟨_, _, F', x, ?_, hr, htaken⟩
  rw [mallocLoop, hscan, Option.bind_some, if_pos hfits]

theorem mallocLoop_spec (hloose : Loose h F) (hfreep : h.freep ∈ F)
    (hbase : 0 < base) (hnu : 0 < nu) (hexact : coreBytes nu = HEADER * coreUnits nu)
    {answer : Option Nat} (hfresh : ∀ a ∈ answer, Fresh base h a (coreBytes nu)) :
    ∃ h' r, mallocLoop nu [answer] h = some (h', r) ∧
      (r = 0 ∧ h' = h ∨ ∃ F' x, r = x + HEADER ∧ Taken base h L nu h' F' x) := by
  obtain ⟨q, hq, hscan, hstop⟩ := hl.scan_enough nu hfreep
  rw [mallocLoop, hscan, Option.bind_some]
  by_cases hfits : nu ≤ h.size (h.ptr q)
  · rw [if_pos hfits]
    obtain ⟨F', x, hr, htaken⟩ := hl.take hloose hq hnu hfits
    exact ⟨_, _, rfl, Or.inr ⟨F', x, hr, htaken⟩⟩
  · rw [if_neg hfits]
    cases answer with
    | none => exact ⟨h, 0, rfl, Or.inl ⟨rfl, rfl⟩⟩
    | some a =>
      have hle : nu ≤ coreUnits nu := by
        unfold coreUnits
        split <;> omega
      obtain ⟨haS, hgrow⟩ := hl.grow (hfresh a rfl) hexact (Nat.lt_of_lt_of_le hnu hle)
      have haL : a ∉ L := fun hc => haS (Finset.mem_union_right F hc)
      have hsame : ∀ u ∈ F ∪ L, upd h.size a (coreUnits nu) u = h.size u :=
        fun u hu => upd_ne _ _ fun hc => haS (hc ▸ hu)
      have hloose' : Loose { h with
          size := upd h.size a (coreUnits nu)
          regions := (a, coreBytes nu) :: h.regions } F := by
        rintro u v ⟨hu, hv, huv, he⟩
        dsimp only at he
        rw [hsame u (Finset.mem_union_left L hu)] at he
        exact hloose u v ⟨hu, hv, huv, he⟩
      obtain ⟨h₂, F₂, hfree, hfreed⟩ :=
        hgrow.free hloose' (Finset.mem_insert_self a L) hfreep
      have hlists := hfreed.lists
      rw [Finset.erase_insert haL] at hlists
      have hnear := hfreed.near
      dsimp only at hnear
      rw [upd_same] at hnear
      obtain ⟨h₃, r, F₃, x, hloop, hr, htaken⟩ := hlists.secondRound hfreed.loose hfreed.freep hnu
        (hnear.imp hle.trans hle.trans)
      have hne : h₂.freep ≠ 0 := by
        have := hlists.links.least _ hfreed.freep
        omega
      refine ⟨h₃, r, ?_, Or.inr ⟨F₃, x, hr, htaken.lists, htaken.loose, htaken.freep, htaken.new,
        fun u hu => ?_, htaken.live.trans hfreed.live, htaken.want.trans hfreed.want⟩⟩
      · rw [morecore, hfree, Option.map_some, Option.bind_some, if_neg hne, hloop]
      · rw [htaken.size u hu, hfreed.size u (by rwa [Finset.erase_insert haL])]
        exact hsame u (Finset.mem_union_right F hu)

end

end Lists

/-! ## Runs -/

open Xv6.Umalloc.Lists

/-- The invariant after the first call. -/
structure Full (base : Nat) (h : Heap) (F : Finset Nat) : Prop where
  lists : Lists base h F h.live
  loose : Loose h F
  freep : h.freep ∈ F
  long : ∀ x ∈ h.live, h.want x + HEADER ≤ HEADER * h.size x

/-- The invariant: nothing has happened yet, or the ring is there. -/
def Inv (base : Nat) (h : Heap) : Prop :=
  h.freep = 0 ∧ h.live = ∅ ∧ h.regions = [] ∨ ∃ F, Full base h F

theorem init_full (hbase : 0 < base) (hinv : Inv base h) : ∃ F, Full base (init base h) F := by
  rcases hinv with ⟨hfreep, hlive, hreg⟩ | ⟨F, hfull⟩
  · refine ⟨{base}, ?_, ?_, ?_, ?_⟩
    · rw [init, if_pos hfreep]
      dsimp only
      rw [hlive]
      refine ⟨Ringed.single base (upd_same ..), Finset.disjoint_empty_right _, upd_same .., ?_, ?_, ?_, ?_⟩
      · intro x hx hne
        rw [Finset.union_empty, Finset.mem_singleton] at hx
        exact absurd hx hne
      · rw [Heap.bytes, hreg]
        exact ⟨0, rfl⟩
      · rw [Finset.union_empty]
        refine ⟨fun x hx y hy hlt => ?_, fun x hx c h₁ h₂ => ?_, ?_⟩
        · rw [Finset.mem_singleton] at hx hy
          omega
        · rw [Finset.mem_singleton.mp hx] at h₁ h₂
          dsimp only at h₂
          rw [upd_same] at h₂
          omega
        · rw [Finset.sum_singleton, Heap.bytes, hreg]
          exact upd_same ..
      · intro r hr
        dsimp only at hr
        rw [hreg] at hr
        exact absurd hr List.not_mem_nil
    · rintro x y ⟨hx, hy, hne, -⟩
      rw [Finset.mem_singleton] at hx hy
      exact hne (hx.trans hy.symm)
    · rw [init, if_pos hfreep]
      exact Finset.mem_singleton_self base
    · rw [init, if_pos hfreep]
      dsimp only
      rw [hlive]
      exact fun x hx => absurd hx (Finset.notMem_empty x)
  · have hne : h.freep ≠ 0 := by
      have := hfull.lists.links.least _ hfull.freep
      omega
    rw [init, if_neg hne]
    exact ⟨F, hfull⟩

theorem unitsFor_pos (n : Nat) : 0 < unitsFor n := Nat.succ_pos _

theorem unitsFor_long {n : Nat} (hn : n ≤ 2 ^ 30) : n + HEADER ≤ HEADER * unitsFor n := by
  simp only [unitsFor, HEADER]
  omega

theorem coreBytes_exact {n : Nat} (hn : n ≤ 2 ^ 30) :
    coreBytes (unitsFor n) = HEADER * coreUnits (unitsFor n) := by
  unfold coreBytes coreUnits unitsFor
  simp only [HEADER]
  split <;> omega

/-- A call that returns 0 leaves the blocks of the program as they are. -/
def Intact (base : Nat) (h h' : Heap) : Prop :=
  h'.live = h.live ∧ ∀ u, u ≠ base → h'.ptr u = h.ptr u ∧ h'.size u = h.size u

theorem init_intact (base : Nat) (h : Heap) : Intact base h (init base h) := by
  unfold init
  split
  · exact ⟨rfl, fun u hu => ⟨upd_ne _ _ hu, upd_ne _ _ hu⟩⟩
  · exact ⟨rfl, fun _ _ => ⟨rfl, rfl⟩⟩

theorem init_fresh {a n : Nat} (hf : Fresh base h a n) : Fresh base (init base h) a n := by
  unfold init
  split
  · exact hf
  · exact hf

theorem malloc_full (hbase : 0 < base) (hinv : Inv base h) {n : Nat} {answer : Option Nat}
    (hlegal : Legal base h (.malloc n answer)) :
    ∃ h' r F, exec base h (.malloc n answer) = some (h', r) ∧ Full base h' F ∧
      (r = 0 → Intact base h h') := by
  obtain ⟨hn, hfresh⟩ := hlegal
  obtain ⟨F, hfull⟩ := init_full hbase hinv
  obtain ⟨h', r, hloop, hor⟩ := hfull.lists.mallocLoop_spec hfull.loose hfull.freep hbase
    (unitsFor_pos n) (coreBytes_exact hn) fun a ha => init_fresh (hfresh a ha)
  rcases hor with ⟨rfl, rfl⟩ | ⟨F', x, rfl, ht⟩
  · refine ⟨_, 0, F, ?_, hfull, fun _ => init_intact base h⟩
    rw [exec, malloc, hloop]
    rfl
  · have hr : x + HEADER ≠ 0 := Nat.succ_ne_zero _
    refine ⟨{ h' with live := insert x h'.live, want := upd h'.want x n }, x + HEADER, F', ?_, ?_,
      fun hc => absurd hc hr⟩
    · rw [exec, malloc, hloop, Option.map_some, if_neg hr, Nat.add_sub_cancel]
    · refine ⟨?_, ht.loose, ht.freep, fun u hu => ?_⟩
      · dsimp only
        rw [ht.live]
        exact ht.lists.congr (fun _ _ => rfl) (fun _ _ => rfl) rfl
      · dsimp only at hu ⊢
        rcases Finset.mem_insert.mp hu with rfl | huL
        · rw [upd_same, ht.new.2]
          exact unitsFor_long hn
        · rw [ht.live] at huL
          have hux : u ≠ x := fun hc => ht.new.1 (hc ▸ huL)
          rw [upd_ne _ _ hux, ht.want, ht.size u huL]
          exact hfull.long u huL

theorem free_full (hinv : Inv base h) {ap : Nat} (hlegal : Legal base h (.free ap)) :
    ∃ h' r F, exec base h (.free ap) = some (h', r) ∧ Full base h' F := by
  obtain ⟨hlive, hle⟩ := hlegal
  rcases hinv with ⟨-, hnone, -⟩ | ⟨F, hfull⟩
  · rw [hnone] at hlive
    exact absurd hlive (Finset.notMem_empty _)
  · obtain ⟨h', F', hfree, hfreed⟩ := hfull.lists.free hfull.loose hlive hfull.freep
    rw [Nat.sub_add_cancel hle] at hfree
    refine ⟨{ h' with live := h'.live.erase (ap - HEADER) }, 0, F', ?_, ?_, hfreed.loose, hfreed.freep,
      fun u hu => ?_⟩
    · rw [exec, hfree]
      rfl
    · dsimp only
      rw [hfreed.live]
      exact hfreed.lists.congr (fun _ _ => rfl) (fun _ _ => rfl) rfl
    · dsimp only at hu ⊢
      rw [hfreed.live] at hu
      rw [hfreed.want, hfreed.size u hu]
      exact hfull.long u (Finset.mem_of_mem_erase hu)

theorem store_full {F : Finset Nat} (hfull : Full base h F) {c v w : Nat} (hc : h.Payload c) :
    Full base { h with ptr := upd h.ptr c v, size := upd h.size c w } F := by
  obtain ⟨x, hx, h₁, h₂⟩ := hc
  have hcS := hfull.lists.tiles.notMem (Finset.mem_union_right F hx) h₁ h₂
  have hsize : ∀ u ∈ F ∪ h.live, upd h.size c w u = h.size u :=
    fun u hu => upd_ne _ _ fun hc => hcS (hc ▸ hu)
  refine ⟨hfull.lists.congr (fun u hu => upd_ne _ _ fun hc => ?_) hsize rfl, ?_, hfull.freep,
    fun u hu => ?_⟩
  · exact hcS (hc ▸ Finset.mem_union_left h.live hu)
  · rintro u z ⟨hu, hz, huz, he⟩
    dsimp only at he
    rw [hsize u (Finset.mem_union_left _ hu)] at he
    exact hfull.loose u z ⟨hu, hz, huz, he⟩
  · dsimp only at hu ⊢
    rw [hsize u (Finset.mem_union_right F hu)]
    exact hfull.long u hu

theorem step_inv (hbase : 0 < base) {e : Event} (he : step base h e = some h') (hinv : Inv base h) :
    Inv base h' := by
  cases e with
  | call c =>
    obtain ⟨hlegal, he⟩ := Option.ite_none_right_eq_some.mp he
    cases c with
    | malloc n answer =>
      obtain ⟨h₁, r, F, hexec, hfull, -⟩ := malloc_full hbase hinv hlegal
      rw [hexec] at he
      cases he
      exact Or.inr ⟨F, hfull⟩
    | free ap =>
      obtain ⟨h₁, r, F, hexec, hfull⟩ := free_full hinv hlegal
      rw [hexec] at he
      cases he
      exact Or.inr ⟨F, hfull⟩
  | store c v w =>
    obtain ⟨hpay, he⟩ := Option.ite_none_right_eq_some.mp he
    cases he
    rcases hinv with ⟨-, hlive, -⟩ | ⟨F, hfull⟩
    · obtain ⟨x, hx, -⟩ := hpay
      rw [hlive] at hx
      exact absurd hx (Finset.notMem_empty x)
    · exact Or.inr ⟨F, store_full hfull hpay⟩

theorem run_inv (hbase : 0 < base) {ptr size : Nat → Nat} {es : List Event}
    (hrun : run (step base) (boot ptr size) es = some h) : Inv base h :=
  run_invariant (fun _ _ _ he hinv => step_inv hbase he hinv) hrun (Or.inl ⟨rfl, rfl, rfl⟩)

/-! ## Integrity -/

/-- The free list `F` and the blocks of the program are in order. -/
structure WellFormed (base : Nat) (h : Heap) (F : Finset Nat) : Prop where
  /-- The free list is in increasing order and wraps once, from the greatest to `base`. -/
  links : Ringed F base h.ptr
  /-- It is a single cycle through `base`. -/
  cycle : ∀ x ∈ F, ∃ k, h.ptr^[k] base = x
  freep : h.freep ∈ F
  /-- Free blocks neither overlap nor touch. -/
  free : ∀ x ∈ F, ∀ y ∈ F, x < y → x + HEADER * h.size x < y
  live : ∀ x ∈ h.live, ∀ y ∈ h.live, x < y → x + HEADER * h.size x ≤ y
  apart : ∀ x ∈ h.live, ∀ y ∈ F, y + HEADER * h.size y ≤ x ∨ x + HEADER * h.size x ≤ y
  inside : ∀ x ∈ h.live, ∀ c, x ≤ c → c < x + HEADER * h.size x → h.Mem c
  long : ∀ x ∈ h.live, h.want x + HEADER ≤ HEADER * h.size x
  units : HEADER * (∑ x ∈ F, h.size x + ∑ x ∈ h.live, h.size x) = h.bytes

theorem Full.wellFormed {F : Finset Nat} (hfull : Full base h F) : WellFormed base h F := by
  have hl := hfull.lists
  have hF : ∀ x ∈ F, x ∈ F ∪ h.live := fun x => Finset.mem_union_left h.live
  have hL : ∀ x ∈ h.live, x ∈ F ∪ h.live := fun x => Finset.mem_union_right F
  refine ⟨hl.links, fun x hx => ?_, hfull.freep, fun x hx y hy hlt => ?_,
    fun x hx y hy => hl.tiles.apart x (hL x hx) y (hL y hy), fun x hx y hy => ?_,
    fun x hx => hl.tiles.inside x (hL x hx), hfull.long, ?_⟩
  · obtain ⟨k, -, hk⟩ := hl.links.reaches hx _ base hl.links.base (Nat.lt_succ_self _)
    exact ⟨k, hk⟩
  · refine Nat.lt_of_le_of_ne (hl.tiles.apart x (hF x hx) y (hF y hy) hlt) fun hc => ?_
    exact hfull.loose x y ⟨hx, hy, hlt.ne, hc⟩
  · rcases Nat.lt_trichotomy x y with hlt | heq | hgt
    · exact Or.inr (hl.tiles.apart x (hL x hx) y (hF y hy) hlt)
    · exact absurd hx (heq ▸ hl.notMem_right hy)
    · exact Or.inl (hl.tiles.apart y (hF y hy) x (hL x hx) hgt)
  · rw [← Finset.sum_union hl.disj, hl.tiles.total]
    exact Nat.mul_div_cancel' hl.whole

/-- **The heap keeps its integrity.**  In every run of calls and writes into the blocks of the
program, the next call returns, and then the free list and the blocks are in order. A `malloc`
that returns 0 leaves the blocks intact. -/
theorem heap_integrity (hbase : 0 < base) {ptr size : Nat → Nat} {es : List Event}
    (hrun : run (step base) (boot ptr size) es = some h) (c : Call) (hc : Legal base h c) :
    ∃ h' r, exec base h c = some (h', r) ∧ (∃ F, WellFormed base h' F) ∧
      ∀ n answer, c = .malloc n answer → r = 0 → Intact base h h' := by
  have hinv := run_inv hbase hrun
  cases c with
  | malloc n answer =>
    obtain ⟨h', r, F, hexec, hfull, hzero⟩ := malloc_full hbase hinv hc
    exact ⟨h', r, hexec, ⟨F, hfull.wellFormed⟩, fun _ _ _ => hzero⟩
  | free ap =>
    obtain ⟨h', r, F, hexec, hfull⟩ := free_full hinv hc
    exact ⟨h', r, hexec, ⟨F, hfull.wellFormed⟩, fun _ _ hc => by cases hc⟩

/-- Two blocks are asked for, the first one is written and freed, and `sbrk` then fails. -/
theorem heap_integrity_two : ∃ h h' r F, run (step 64) (boot (fun _ => 0) fun _ => 0)
      [.call (.malloc 100 (some 4096)), .call (.malloc 5000 none), .store 36756 7 7,
        .call (.free 36760)] = some h ∧
    exec 64 h (.malloc 100000 none) = some (h', r) ∧ WellFormed 64 h' F := by
  obtain ⟨h, hrun⟩ : ∃ h, run (step 64) (boot (fun _ => 0) fun _ => 0)
      [.call (.malloc 100 (some 4096)), .call (.malloc 5000 none), .store 36756 7 7,
        .call (.free 36760)] = some h := ⟨_, rfl⟩
  obtain ⟨h', r, he, ⟨F, hF⟩, -⟩ := heap_integrity (by decide) hrun (.malloc 100000 none)
    ⟨by decide, fun _ hc => by cases hc⟩
  exact ⟨h, h', r, F, hrun, he, hF⟩

end Xv6.Umalloc
