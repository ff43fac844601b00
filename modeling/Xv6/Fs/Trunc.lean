import Xv6.Fs.Content

/-!
# Truncating and updating an inode

`itrunc` empties an inode. The proof takes all blocks out of the inode at once
and holds them as spare blocks of the pool. Each `bfree` then gives one of them
back, in the order of the two loops, and none is left at the end.

`iupdate` stores one inode of the table on disk.
-/

namespace Xv6

open Hoare Table Bytes Pool

variable {s : Fs} {k : Fin NINODE} {i : Nat} {I : Nat → Dinode} {X : Set Nat}

/-! ## The inode table -/

variable {sb : Superblock}

theorem iblock_inj_mod {i j : Nat} (h : sb.iblock i = sb.iblock j) (hm : i % IPB = j % IPB) : i = j := by
  have hd : i / IPB = j / IPB := Nat.add_right_cancel h
  rw [← Nat.div_add_mod i IPB, hd, hm, Nat.div_add_mod]

variable {d : Dinode}

theorem dinode_of_blk_eq {t : Fs} (hsb : t.sb = s.sb) (hblk : t.blk = upd s.blk (s.sb.iblock i)
      ((s.blk (s.sb.iblock i)).setDinode (i % IPB) d)) : t.dinode = upd s.dinode i d := by
  have hi : i % IPB < IPB := Nat.mod_lt _ (by decide)
  funext j
  unfold Fs.dinode
  rw [hsb, hblk]
  by_cases hj : j = i
  · subst hj
    rw [upd_same, upd_same, Block.dinode_setDinode_same _ _ hi]
  · rw [upd_ne _ _ hj]
    by_cases hb : s.sb.iblock j = s.sb.iblock i
    · rw [hb, upd_same, Block.dinode_setDinode_ne]
      exact fun hm => hj (iblock_inj_mod hb hm)
    · rw [upd_ne _ _ hb]

variable {blk : Nat → Block}

theorem Owned.upd_inode (h : Owned sb blk I X) (hg : sb.Geom)
    (hi : i < sb.ninodes) (v : Block) : Owned sb (upd blk (sb.iblock i) v) I X := by
  have hbit : ∀ c, sb.bit (upd blk (sb.iblock i) v) c = sb.bit blk c :=
    fun c => bit_upd v (hg.iblock_ne_bblock hi c).symm
  refine ⟨fun c hc => by rw [hbit, h.meta_used c hc], h.pool.congr (fun q => ?_) (fun c => ?_)⟩
  · exact h.own_upd_meta v (fun hd => hg.iblock_not_inData hi hd rfl) q
  · unfold Superblock.Used
    rw [hbit]

theorem iupdate_spec (hop : s.InOp) : Wp (iupdate k) s (fun _ t => Frame s t ∧ t.icache = s.icache ∧
      t.blk = upd s.blk (s.sb.iblock (s.icache k).inum)
        ((s.blk (s.sb.iblock (s.icache k).inum)).setDinode ((s.icache k).inum % IPB)
          (s.icache k).din)) Stop.scarce := by
  unfold iupdate
  rw [wp_bind, wp_get]
  exact bput_spec hop _ _

/-! ## Freeing blocks -/

/-- The blocks that the block layer writes only as the content of a file. -/
def Fs.SameData (s t : Fs) : Prop :=
  (∀ c, s.sb.InData c → t.blk c = s.blk c) ∧
    ∀ j < s.sb.ninodes, t.blk (s.sb.iblock j) = s.blk (s.sb.iblock j)

theorem Fs.SameData.trans {s t u : Fs} (h : s.SameData t) (h' : t.SameData u) (hsb : t.sb = s.sb) :
    s.SameData u := by
  unfold Fs.SameData at *
  rw [hsb] at h'
  exact ⟨fun c hc => (h'.1 c hc).trans (h.1 c hc), fun j hj => (h'.2 j hj).trans (h.2 j hj)⟩

/-- What the steps that free blocks ensure: `X` are the blocks still to free. -/
structure FreePost (s : Fs) (I : Nat → Dinode) (X : Set Nat) (t : Fs) : Prop where
  frame : Frame s t
  owned : Owned s.sb t.blk I X
  data : s.SameData t

theorem FreePost.refl (h : Owned s.sb s.blk I X) : FreePost s I X s :=
  ⟨Frame.refl s, h, fun _ _ => rfl, fun _ _ => rfl⟩

theorem FreePost.trans {t u : Fs} {Y : Set Nat} (h : FreePost s I X t) (h' : FreePost t I Y u) :
    FreePost s I Y u where
  frame := h.frame.trans h'.frame
  owned := by have := h'.owned; rwa [h.frame.sb] at this
  data := h.data.trans h'.data h.frame.sb

theorem bfree_owned (hg : s.sb.Geom) (hop : s.InOp) (h : Owned s.sb s.blk I X) {b : Nat} (hb : b ∈ X) :
    Wp (bfree b) s (fun _ t => t.icache = s.icache ∧ FreePost s I (X \ {b}) t) Stop.scarce := by
  have hu := h.pool.used_spare hb
  refine (bfree_spec hop hu.2).imp ?_
  rintro _ t ⟨hf, hc, hblk⟩
  refine ⟨hc, hf, by rw [hblk]; exact h.free hg hb, fun c hd => ?_, fun j hj => ?_⟩
  · rw [hblk, Superblock.unmark, upd_ne _ _ (hg.bblock_not_inData hu.1.2 hd).symm]
  · rw [hblk, Superblock.unmark, upd_ne _ _ (hg.iblock_ne_bblock hj b)]

/-- The blocks at the positions of `d` from `p` on. -/
def Dinode.blocksFrom (d : Dinode) (blk : Nat → Block) (p : Nat) : Set Nat :=
  {b | b ≠ 0 ∧ ∃ q, p ≤ q ∧ d.ptr blk q = b}

/-- No block is at two positions. -/
def Dinode.PtrInj (d : Dinode) (blk : Nat → Block) : Prop :=
  ∀ p q, d.ptr blk p = d.ptr blk q → d.ptr blk p ≠ 0 → p = q

variable {p : Nat}

theorem blocksFrom_sdiff (h : d.PtrInj blk) :
    d.blocksFrom blk p \ {d.ptr blk p} = d.blocksFrom blk (p + 1) := by
  ext b
  constructor
  · rintro ⟨⟨hb, q, hq, rfl⟩, hne⟩
    refine ⟨hb, q, ?_, rfl⟩
    have : q ≠ p := fun he => hne (by rw [he]; rfl)
    omega
  · rintro ⟨hb, q, hq, rfl⟩
    refine ⟨⟨hb, q, by omega, rfl⟩, fun he => ?_⟩
    have := h q p he hb
    omega

theorem blocksFrom_succ_of_eq (h0 : d.ptr blk p = 0) : d.blocksFrom blk p = d.blocksFrom blk (p + 1) := by
  ext b
  constructor
  · rintro ⟨hb, q, hq, rfl⟩
    refine ⟨hb, q, ?_, rfl⟩
    have : q ≠ p := fun he => hb (by rw [he, h0])
    omega
  · rintro ⟨hb, q, hq, rfl⟩
    exact ⟨hb, q, by omega, rfl⟩

theorem itruncDirect_spec {blk₀ : Nat → Block} (hinj : d.PtrInj blk₀) :
    ∀ (n p : Nat) (s : Fs), n + p = NDIRECT → s.sb.Geom → s.InOp →
    Owned s.sb s.blk I (d.blocksFrom blk₀ p) → (∀ q, p ≤ q → (s.icache k).din.addr q = d.addr q) →
    (∀ q < p, (s.icache k).din.addr q = 0) →
    Wp (itruncDirect k n p) s (fun _ t => ∃ d', t.icache = s.withDin k d' ∧
      FreePost s I (d.blocksFrom blk₀ NDIRECT) t ∧
      d' = { (s.icache k).din with addrs := d'.addrs } ∧ d'.addr NDIRECT = d.addr NDIRECT ∧
      ∀ q < NDIRECT, d'.addr q = 0) Stop.scarce
  | 0, p, s, hp, _, _, h, hsame, hzero => by
    have hp' : p = NDIRECT := by omega
    subst hp'
    exact wp_pure.mpr ⟨(s.icache k).din, (withDin_self s k).symm, FreePost.refl h, rfl,
      hsame _ (Nat.le_refl _), hzero⟩
  | n + 1, p, s, hp, hg, hop, h, hsame, hzero => by
    have hpd : p < NDIRECT := by omega
    have hptr : d.ptr blk₀ p = d.addr p := Dinode.ptr_of_le _ _ (Nat.le_of_lt hpd)
    unfold itruncDirect inode
    simp only [wp_bind, wp_get, wp_pure]
    rw [hsame p (Nat.le_refl _)]
    refine wp_ite (fun h0 => ?_) (fun h0 => ?_)
    · refine (bfree_owned hg hop h ⟨h0, p, Nat.le_refl _, hptr⟩).seq ?_
      rintro _ t ⟨hc, hpost⟩
      unfold setDin setInode
      rw [wp_modify]
      have hstep := blocksFrom_sdiff hinj (p := p)
      rw [hptr] at hstep
      have hdin : ((t.setInode k fun ip => { ip with din := ip.din.setAddr p 0 }).icache k).din
          = (s.icache k).din.setAddr p 0 := by
        rw [Fs.icache_setInode, upd_same, hc]
      have hrec := itruncDirect_spec hinj n (p + 1)
        (t.setInode k fun ip => { ip with din := ip.din.setAddr p 0 }) (by omega)
        (by change t.sb.Geom; rw [hpost.frame.sb]; exact hg)
        ((hpost.frame.trans (frame_setInode _ _ _)).inOp hop)
        (by
          have := hpost.owned
          rw [hstep, ← hpost.frame.sb] at this
          exact this)
        (fun q hq => by rw [hdin, Dinode.addr_setAddr_ne _ _ (by omega), hsame q (by omega)])
        (fun q hq => by
          rw [hdin]
          by_cases he : q = p
          · subst he
            exact Dinode.addr_setAddr_same _ (by omega) (by decide)
          · rw [Dinode.addr_setAddr_ne _ _ he, hzero q (by omega)])
      refine hrec.imp ?_
      rintro _ u ⟨d', hu, hfree, hf, hind, hz⟩
      refine ⟨d', ?_, ?_, ?_, hind, hz⟩
      · rw [hu, Fs.withDin, Fs.withDin, Fs.icache_setInode, upd_upd, upd_same, hc]
      · have hmid : FreePost s I (d.blocksFrom blk₀ (p + 1))
            (t.setInode k fun ip => { ip with din := ip.din.setAddr p 0 }) := by
          rw [← hstep]
          exact ⟨hpost.frame.trans (frame_setInode _ _ _), hpost.owned, hpost.data⟩
        exact hmid.trans hfree
      · rw [hf, hdin]
        rfl
    · rw [wp_pure]
      have h0' : d.addr p = 0 := by simpa using h0
      rw [blocksFrom_succ_of_eq (by rw [hptr, h0'])] at h
      exact itruncDirect_spec hinj n (p + 1) s (by omega) hg hop h
        (fun q hq => hsame q (by omega)) (fun q hq => by
          by_cases he : q = p
          · subst he; rw [hsame q (Nat.le_refl _), h0']
          · exact hzero q (by omega))

theorem blocksFrom_end (d : Dinode) (blk : Nat → Block) (hp : NPTR ≤ p) : d.blocksFrom blk p = ∅ := by
  ext b
  constructor
  · rintro ⟨hb, q, hq, rfl⟩
    exact hb (Dinode.ptr_of_ge _ _ (by omega))
  · exact fun h => h.elim

theorem itruncIndirect_spec {blk₀ : Nat → Block} (hinj : d.PtrInj blk₀) (hind : d.addr NDIRECT ≠ 0) :
    ∀ (n j : Nat) (s : Fs), n + j = NINDIRECT → s.sb.Geom → s.InOp →
    Owned s.sb s.blk I (insert (d.addr NDIRECT) (d.blocksFrom blk₀ (NDIRECT + 1 + j))) →
    Wp (itruncIndirect (blk₀ (d.addr NDIRECT)) n j) s (fun _ t => t.icache = s.icache ∧
      FreePost s I {d.addr NDIRECT} t) Stop.scarce
  | 0, j, s, hj, _, _, h => by
    rw [blocksFrom_end _ _ (by simp only [NPTR, MAXFILE]; omega), insert_empty_eq] at h
    exact wp_pure.mpr ⟨rfl, FreePost.refl h⟩
  | n + 1, j, s, hj, hg, hop, h => by
    have hptr := d.ptr_entry blk₀ (j := j) (by omega) hind
    unfold itruncIndirect
    rw [← hptr, wp_bind]
    refine wp_ite (fun h0 => ?_) (fun h0 => ?_)
    · have hne : d.addr NDIRECT ∉ ({d.ptr blk₀ (NDIRECT + 1 + j)} : Set Nat) := by
        intro he
        rw [Set.mem_singleton_iff] at he
        rw [← Dinode.ptr_of_le d blk₀ (Nat.le_refl NDIRECT)] at he hind
        have := hinj _ _ he hind
        omega
      refine (bfree_owned hg hop h (.inr ⟨h0, _, Nat.le_refl _, rfl⟩)).imp ?_
      rintro _ t ⟨hc, hpost⟩
      rw [Set.insert_sdiff_of_notMem _ hne, blocksFrom_sdiff hinj] at hpost
      refine (itruncIndirect_spec hinj hind n (j + 1) t (by omega)
        (by rw [hpost.frame.sb]; exact hg) (hpost.frame.inOp hop)
        (by rw [hpost.frame.sb]; exact hpost.owned)).imp ?_
      rintro _ u ⟨hc', hpost'⟩
      exact ⟨hc'.trans hc, hpost.trans hpost'⟩
    · rw [wp_pure]
      rw [blocksFrom_succ_of_eq (by simpa using h0)] at h
      exact itruncIndirect_spec hinj hind n (j + 1) s (by omega) hg hop h

theorem Owned.clear (h : Owned sb blk I ∅)
    (hi : i < sb.ninodes) (ht : (I i).type ≠ 0) {d' : Dinode} (hd' : ∀ p, d'.ptr blk p = 0) :
    Owned sb blk (upd I i d') ((I i).blocksFrom blk 0) := by
  refine ⟨h.meta_used, ?_⟩
  have hin : ∀ q ∈ {q : Nat × Nat | q.1 = i}, sb.own blk (upd I i d') q = 0 := by
    rintro ⟨j, p⟩ rfl
    unfold Superblock.own
    simp only [upd_same, hd', ite_self]
  have hout : ∀ q, q ∉ {q : Nat × Nat | q.1 = i} → sb.own blk (upd I i d') q = sb.own blk I q := by
    rintro ⟨j, p⟩ hne
    unfold Superblock.own
    rw [upd_ne _ _ hne]
  convert h.pool.release _ hin hout using 1
  ext b
  rw [Set.empty_union]
  constructor
  · rintro ⟨hb, p, _, rfl⟩
    exact ⟨hb, (i, p), rfl, sb.own_eq blk hi ht p⟩
  · rintro ⟨hb, ⟨j, p⟩, rfl, rfl⟩
    exact ⟨hb, p, Nat.zero_le _, (sb.own_eq blk hi ht p).symm⟩

theorem Owned.congr_cleared {d' : Dinode} (h : Owned sb blk (upd I i d) X) (hd : ∀ p, d.ptr blk p = 0)
    (hd' : d'.type = 0 ∨ ∀ p, d'.ptr blk p = 0) : Owned sb blk (upd I i d') X := by
  refine ⟨h.meta_used, h.pool.congr (fun q => ?_) (fun _ => Iff.rfl)⟩
  unfold Superblock.own
  by_cases hq : q.1 = i
  · rw [hq, upd_same, upd_same, hd, ite_self]
    rcases hd' with h0 | h0
    · rw [if_neg fun hc => hc.2 h0]
    · rw [h0, ite_self]
  · rw [upd_ne _ _ hq, upd_ne _ _ hq]

theorem Dinode.ptr_of_addr_zero (h : ∀ p ≤ NDIRECT, d.addr p = 0)
    (blk : Nat → Block) (p : Nat) : d.ptr blk p = 0 := by
  unfold Dinode.ptr
  split
  · next hp => exact h p hp
  · rw [if_neg fun hc => hc.2 (h _ (Nat.le_refl _))]

structure TruncPost (s : Fs) (k : Fin NINODE) (i : Nat) (I : Nat → Dinode) (t : Fs) (d' : Dinode) :
    Prop where
  frame : Frame s t
  icache : t.icache = s.withDin k d'
  owned : Owned s.sb t.blk (upd I i d') ∅
  fields : d' = { I i with addrs := d'.addrs, size := 0 }
  cleared : ∀ p ≤ NDIRECT, d'.addr p = 0
  data : ∀ c, s.sb.InData c → t.blk c = s.blk c
  table : ∀ j < s.sb.ninodes, t.dinode j = upd s.dinode i d' j

theorem Owned.ptrInj (h : Owned sb blk I X)
    (hi : i < sb.ninodes) (ht : (I i).type ≠ 0) : (I i).PtrInj blk :=
  fun _ _ he h0 => (h.ptr_inj hi ht hi ht he h0).2

/-- `d` with its positions cleared. -/
def Dinode.noBlocks (d : Dinode) : Dinode := { d with addrs := Vector.replicate (NDIRECT + 1) 0 }

theorem Dinode.addr_noBlocks (d : Dinode) (p : Nat) : d.noBlocks.addr p = 0 := by
  unfold Dinode.addr Dinode.noBlocks
  by_cases hp : p < NDIRECT + 1
  · simp [hp]
  · simp [hp]

theorem itruncMiddle_spec (hg : s.sb.Geom) (hop : s.InOp) (hinj : d.PtrInj s.blk)
    (h : Owned s.sb s.blk I (d.blocksFrom s.blk NDIRECT))
    (hind : (s.icache k).din.addr NDIRECT = d.addr NDIRECT) :
    Wp (if d.addr NDIRECT ≠ 0 then do
          itruncIndirect (← bread (d.addr NDIRECT)) NINDIRECT 0
          bfree (d.addr NDIRECT)
          setDin k (·.setAddr NDIRECT 0)
        else return ()) s
      (fun _ t => ∃ d', t.icache = s.withDin k d' ∧ FreePost s I ∅ t ∧
        d' = { (s.icache k).din with addrs := d'.addrs } ∧ d'.addr NDIRECT = 0 ∧
        ∀ q < NDIRECT, d'.addr q = (s.icache k).din.addr q) Stop.scarce := by
  refine wp_ite (fun h0 => ?_) (fun h0 => ?_)
  · have hfrom : d.blocksFrom s.blk NDIRECT =
        insert (d.addr NDIRECT) (d.blocksFrom s.blk (NDIRECT + 1 + 0)) := by
      have hptr : d.ptr s.blk NDIRECT = d.addr NDIRECT := Dinode.ptr_of_le _ _ (Nat.le_refl _)
      rw [Nat.add_zero, ← blocksFrom_sdiff hinj (p := NDIRECT), hptr, Set.insert_sdiff_singleton,
        Set.insert_eq_of_mem]
      exact ⟨h0, NDIRECT, Nat.le_refl _, hptr⟩
    rw [hfrom] at h
    unfold bread
    simp only [wp_bind, wp_get, wp_pure]
    refine (itruncIndirect_spec hinj h0 NINDIRECT 0 s rfl hg hop h).imp ?_
    rintro _ t ⟨hc, hpost⟩
    refine (bfree_owned (by rw [hpost.frame.sb]; exact hg) (hpost.frame.inOp hop)
      (by rw [hpost.frame.sb]; exact hpost.owned) (Set.mem_singleton _)).imp ?_
    rintro _ u ⟨hc', hpost'⟩
    unfold setDin setInode
    rw [wp_modify]
    rw [sdiff_self] at hpost'
    have hall := hpost.trans hpost'
    refine ⟨(s.icache k).din.setAddr NDIRECT 0, ?_,
      ⟨hall.frame.trans (frame_setInode _ _ _), hall.owned, hall.data⟩, rfl,
      Dinode.addr_setAddr_same _ (Nat.le_refl _) (by decide),
      fun q hq => Dinode.addr_setAddr_ne _ _ (by omega)⟩
    rw [Fs.icache_setInode, hc', hc, Fs.withDin]
  · have h0' : d.addr NDIRECT = 0 := by simpa using h0
    have hempty : d.blocksFrom s.blk NDIRECT = ∅ := by
      ext b
      constructor
      · rintro ⟨hb, q, hq, rfl⟩
        refine hb ?_
        unfold Dinode.ptr
        split
        · next hle => rw [show q = NDIRECT by omega, h0']
        · rw [if_neg fun hc => hc.2 h0']
      · exact fun hb => hb.elim
    rw [hempty] at h
    exact wp_pure.mpr ⟨_, (withDin_self s k).symm, FreePost.refl h, rfl, by rw [hind, h0'],
      fun _ _ => rfl⟩

theorem itrunc_spec (hg : s.sb.Geom) (hop : s.InOp) (hI : I i = (s.icache k).din)
    (hk : (s.icache k).inum = i) (hi : i < s.sb.ninodes) (ht : (I i).type ≠ 0) (h : Owned s.sb s.blk I ∅) :
    Wp (itrunc k) s (fun _ t => ∃ d', TruncPost s k i I t d') Stop.scarce := by
  have hinj := h.ptrInj hi ht
  have hz : ∀ p, (I i).noBlocks.ptr s.blk p = 0 :=
    fun p => Dinode.ptr_of_addr_zero (fun q _ => Dinode.addr_noBlocks _ q) _ p
  unfold itrunc inode
  refine (itruncDirect_spec hinj NDIRECT 0 s rfl hg hop (h.clear hi ht hz)
    (fun q _ => by rw [hI]) (fun q hq => absurd hq (by omega))).seq ?_
  rintro _ t ⟨d₁, hc1, hp1, hf1, hind1, hz1⟩
  have hd1 : (t.icache k).din = d₁ := by rw [hc1, Fs.withDin, upd_same]
  have hsame : ∀ p, (I i).ptr t.blk p = (I i).ptr s.blk p := fun p =>
    Dinode.ptr_congr _ (fun h0 => hp1.data.1 _ (h.addr_inData hi ht (Nat.le_refl _) h0)) p
  have hfrom : (I i).blocksFrom t.blk NDIRECT = (I i).blocksFrom s.blk NDIRECT := by
    unfold Dinode.blocksFrom
    simp only [hsame]
  simp only [wp_bind, wp_get, wp_pure]
  rw [hd1, hind1]
  have hmid := itruncMiddle_spec (s := t) (k := k) (d := (I i)) (by rw [hp1.frame.sb]; exact hg)
    (hp1.frame.inOp hop) (fun p q he h0 => by
      rw [hsame, hsame] at he
      rw [hsame] at h0
      exact hinj p q he h0)
    (by rw [hfrom, hp1.frame.sb]; exact hp1.owned) (by rw [hd1, hind1])
  refine hmid.imp ?_
  rintro _ u ⟨d₂, hc2, hp2, hf2, hind2, hz2⟩
  have hall := hp1.trans hp2
  obtain ⟨d', hd'⟩ : ∃ d', d' = { d₂ with size := 0 } := ⟨_, rfl⟩
  have hcleared : ∀ p ≤ NDIRECT, d'.addr p = 0 := by
    intro p hp
    rw [hd']
    by_cases he : p = NDIRECT
    · rw [he]; exact hind2
    · have := hz2 p (by omega)
      rw [hd1, hz1 p (by omega)] at this
      exact this
  have hfields : d' = { I i with addrs := d'.addrs, size := 0 } := by
    rw [hd', hf2, hd1, hf1, hI]
  have hic : (u.setInode k fun ip => { ip with din := { ip.din with size := 0 } }).icache =
      s.withDin k d' := by
    rw [Fs.icache_setInode, hc2, Fs.withDin, Fs.withDin, hc1, Fs.withDin, upd_upd, upd_upd,
      upd_same, upd_same, hd']
  have hik : (s.withDin k d' k).inum = i ∧ (s.withDin k d' k).din = d' := by
    rw [Fs.withDin, upd_same]
    exact ⟨hk, rfl⟩
  have hframe := hall.frame.trans (frame_setInode u k fun ip =>
    { ip with din := { ip.din with size := 0 } })
  unfold setDin setInode
  rw [wp_modify]
  refine (iupdate_spec (hframe.inOp hop)).imp ?_
  rintro _ v ⟨hf3, hc3, hb3⟩
  rw [hic, hik.1, hik.2, Fs.blk_setInode, Fs.sb_setInode, hall.frame.sb] at hb3
  refine ⟨d', hframe.trans hf3, hc3.trans hic, ?_, hfields, hcleared, fun c hc => ?_, fun j hj => ?_⟩
  · rw [hb3]
    exact (hall.owned.congr_cleared (fun p => Dinode.ptr_of_addr_zero
      (fun q _ => Dinode.addr_noBlocks _ q) _ p)
      (.inr fun p => Dinode.ptr_of_addr_zero hcleared _ p)).upd_inode hg hi _
  · rw [hb3, upd_ne _ _ (hg.iblock_not_inData hi hc).symm, hall.data.1 c hc]
  · rw [dinode_of_blk_eq (s := u) (t := v) (i := i) (d := d')
      ((hf3.trans (Frame.refl v)).sb) (by rw [hb3, hall.frame.sb]), upd_apply, upd_apply]
    split
    · rfl
    · unfold Fs.dinode
      rw [hall.frame.sb, hall.data.2 j hj]

end Xv6
