import Xv6.Fs.LogRoom

/-!
# Enough free blocks

`balloc` finds a free block if there is one, so a write does not fail for want of
blocks when there are as many free blocks as positions it has to fill.
`Enough P d` is that condition for a set `P` of positions of an inode, and it is
an invariant of the loop of `writei`: each allocation takes one free block and
fills one position.
-/

namespace Xv6

open Hoare Table Bytes Scan

variable {s : Fs} {k : Fin NINODE} {i : Nat} {I : Nat → Dinode}

/-! ## Free blocks -/

def Fs.free (s : Fs) : Nat :=
  ((Finset.range s.sb.size).filter fun b => s.sb.bit s.blk b = false).card

variable {t : Fs}

theorem Fs.free_congr (hsb : t.sb = s.sb)
    (h : ∀ b < s.sb.size, s.sb.bit t.blk b = s.sb.bit s.blk b) : t.free = s.free := by
  unfold Fs.free
  rw [hsb]
  refine congrArg Finset.card (Finset.filter_congr fun b hb => ?_)
  rw [h b (Finset.mem_range.mp hb)]

theorem Fs.free_mark {b : Nat} (hsb : t.sb = s.sb) (hb : b < s.sb.size) (hfree : s.sb.bit s.blk b = false)
    (h : ∀ c < s.sb.size, s.sb.bit t.blk c = (s.sb.bit s.blk c || decide (c = b))) :
    t.free + 1 = s.free := by
  unfold Fs.free
  have hmem : b ∈ (Finset.range s.sb.size).filter fun c => s.sb.bit s.blk c = false :=
    Finset.mem_filter.mpr ⟨Finset.mem_range.mpr hb, hfree⟩
  rw [hsb, ← Finset.card_erase_add_one hmem]
  congr 2
  ext c
  simp only [Finset.mem_filter, Finset.mem_range, Finset.mem_erase]
  constructor
  · rintro ⟨hc, hbit⟩
    rw [h c hc, Bool.or_eq_false_iff, decide_eq_false_iff_not] at hbit
    exact ⟨hbit.2, hc, hbit.1⟩
  · rintro ⟨hne, hc, hbit⟩
    exact ⟨hc, by rw [h c hc, hbit, decide_eq_false hne, Bool.or_false]⟩

theorem freeBit_none : ∀ {fuel b : Nat}, BPB ∣ b → s.sb.size ≤ b + fuel * BPB →
    s.freeBit fuel b = none → ∀ c, b ≤ c → c < s.sb.size → s.sb.bit s.blk c = true
  | 0, b, _, hsize, _, c, h1, h2 => by omega
  | fuel + 1, b, hb, hsize, h, c, h1, h2 => by
    rw [Fs.freeBit, if_pos (Nat.lt_of_le_of_lt h1 h2)] at h
    split at h
    next => cases h
    next hscan =>
      by_cases hc : c < b + BPB
      · have hset := firstFrom_none hscan (c - b) (Nat.zero_le _) (by omega)
        obtain ⟨he, hm⟩ : s.sb.bblock (b + (c - b)) = s.sb.bblock b ∧ (b + (c - b)) % BPB = c - b :=
          bblock_add hb (by omega)
        rw [Nat.add_sub_cancel' h1] at he hm
        rw [Superblock.bit, he, hm]
        simpa using hset
      · refine freeBit_none (Nat.dvd_add hb (Nat.dvd_refl _)) ?_ h c (by omega) h2
        rw [Nat.add_mul] at hsize
        omega

theorem bit_allocated {sb : Superblock} {blk : Nat → Block} (hg : sb.Geom) {b c : Nat}
    (hb : sb.InData b) (hc : c < sb.size) :
    sb.bit (sb.allocated blk b) c = (sb.bit blk c || decide (c = b)) := by
  rw [Superblock.allocated, bit_upd _ (hg.bblock_not_inData hc hb), bit_mark]

/-- The only way to stop is a full log. -/
def Stop.onlyTooBig (e : Stop) : Prop := e = .panic .tooBig

theorem bput_only (hop : s.InOp) (b : Nat) (v : Block) :
    Wp (bput b v) s (fun _ t => Frame s t ∧ t.icache = s.icache ∧ t.blk = upd s.blk b v)
      Stop.onlyTooBig := by
  have hstop : Wp (bput b v) s (fun _ _ => True) Stop.onlyTooBig := by
    unfold bput logWrite
    simp only [wp_bind, wp_modify, wp_get]
    refine wp_ite (fun _ => wp_panic.mpr rfl) fun _ => wp_ite (fun h => ?_) fun _ => wp_set.mpr trivial
    rw [Fs.log_setBlk] at h
    unfold Fs.InOp at hop
    omega
  exact ((bput_spec hop b v).and hstop).mono (fun _ _ h => h.1) fun _ h => h.2

theorem balloc_free (hg : s.sb.Geom) (hop : s.InOp) (ho : Owned s.sb s.blk I ∅) (h : 0 < s.free) :
    Wp balloc s (fun _ t => t.free + 1 = s.free) Stop.onlyTooBig := by
  have hstop : Wp balloc s (fun _ _ => True) Stop.onlyTooBig := by
    unfold balloc
    rw [wp_bind, wp_get]
    split
    next b bi hfree =>
      refine (bput_only hop _ _).seq ?_
      rintro _ t ⟨hf, -⟩
      exact (bput_only (hf.inOp hop) _ _).seq (fun _ _ _ => wp_pure.mpr trivial)
    next hnone =>
      obtain ⟨b, hb⟩ := Finset.card_pos.mp h
      obtain ⟨hlt, hbit⟩ := Finset.mem_filter.mp hb
      have hall := freeBit_none (Nat.dvd_zero _)
        (by have := Nat.lt_div_mul_add (a := s.sb.size) (b := BPB) (by decide)
            rw [Nat.add_mul]
            omega) hnone b (Nat.zero_le _) (Finset.mem_range.mp hlt)
      rw [hall] at hbit
      cases hbit
  refine ((balloc_spec hop).and hstop).mono ?_ fun _ he => he.2
  rintro b t ⟨⟨hf, -, hlt, hfree, hblk⟩, -⟩
  refine Fs.free_mark hf.sb hlt hfree fun c hc => ?_
  rw [hblk, bit_allocated hg (ho.alloc hg hlt hfree).1 hc]

/-! ## Filling positions -/

/-- There are as many free blocks as positions of `P` to fill. -/
def Enough (P : Finset Nat) (d : Dinode) (s : Fs) : Prop :=
  (P.filter fun p => d.ptr s.blk p = 0).card ≤ s.free

variable {P : Finset Nat}

variable {d d' : Dinode}

theorem Enough.congr (h : Enough P d s)
    (hptr : ∀ p, d'.ptr t.blk p = d.ptr s.blk p) (hfree : t.free = s.free) : Enough P d' t := by
  unfold Enough at *
  rw [hfree, Finset.filter_congr fun p _ => by rw [hptr p]]
  exact h

variable {p : Nat}

theorem Enough.pos (h : Enough P d s) (hp : p ∈ P) (h0 : d.ptr s.blk p = 0) : 0 < s.free :=
  Nat.lt_of_lt_of_le (Finset.card_pos.mpr ⟨p, Finset.mem_filter.mpr ⟨hp, h0⟩⟩) h

theorem Enough.fill (h : Enough P d s) (hp : p ∈ P) (h0 : d.ptr s.blk p = 0) (h1 : d'.ptr t.blk p ≠ 0)
    (hptr : ∀ q, q ≠ p → d'.ptr t.blk q = d.ptr s.blk q) (hfree : t.free + 1 = s.free) : Enough P d' t := by
  unfold Enough at *
  have hcard := Finset.card_erase_add_one
    (Finset.mem_filter.mpr ⟨hp, h0⟩ : p ∈ P.filter fun p => d.ptr s.blk p = 0)
  have hset : (P.filter fun p => d'.ptr t.blk p = 0) =
      (P.filter fun p => d.ptr s.blk p = 0).erase p := by
    ext q
    simp only [Finset.mem_filter, Finset.mem_erase]
    by_cases hq : q = p
    · rw [hq]
      exact ⟨fun hc => absurd hc.2 h1, fun hc => absurd rfl hc.1⟩
    · rw [hptr q hq]
      exact ⟨fun hc => ⟨hq, hc⟩, And.right⟩
  rw [hset]
  omega

theorem MapPost.enough {a : Nat} (hm : MapPost s k i I p a t d')
    (hs : s.Mappable k i I) (hptr : ∀ q, q ≠ p → d'.ptr t.blk q = (I i).ptr s.blk q) (hp : p ∈ P)
    (h : Enough P (I i) s) (hfree : (I i).ptr s.blk p = 0 → t.free + 1 = s.free) :
    Enough P (t.icache k).din t := by
  have hdin : (t.icache k).din = d' := by rw [hm.icache, Fs.withDin, upd_same]
  rw [hdin]
  by_cases h0 : (I i).ptr s.blk p = 0
  · exact h.fill hp h0 (by rw [hm.result]; exact hm.ne_zero) hptr (hfree h0)
  · have hts := hm.same h0
    rw [← hdin, hts, ← hs.din]
    exact h

theorem bmapAddr_enough (hs : s.Mappable k i I) (hle : p ≤ NDIRECT) (hp : p ∈ P) (h : Enough P (I i) s) :
    Wp (bmapAddr k p) s (fun _ t => Enough P (t.icache k).din t) Stop.onlyTooBig := by
  have hfree : Wp (bmapAddr k p) s (fun _ t => (I i).ptr s.blk p = 0 → t.free + 1 = s.free)
      Stop.onlyTooBig := by
    unfold bmapAddr
    simp only [wp_bind, wp_inode]
    rw [Dinode.ptr_of_le _ _ hle, ← hs.din]
    refine wp_ite (fun h0 => ?_) fun h0 => wp_pure.mpr fun h1 => absurd h1 h0
    have hpos := h.pos hp (by rw [Dinode.ptr_of_le _ _ hle]; exact h0)
    refine (balloc_free hs.geom hs.inOp hs.owned hpos).seq (fun a t ht => ?_)
    simp only [wp_bind, wp_setDin, wp_pure]
    exact fun _ => ht
  have hspec := bmapAddr_spec hs.geom hs.inOp hs.din hs.lt hs.type hs.owned hle
  refine (hspec.and hfree).mono ?_ fun _ he => he.2
  rintro a t ⟨⟨d', hm, hptr⟩, hf⟩
  exact hm.enough hs hptr hp h hf

theorem bmapEntry_enough (hs : s.Mappable k i I) {j : Nat} (hj : j < NINDIRECT)
    (hind : (I i).addr NDIRECT ≠ 0) (hp : NDIRECT + 1 + j ∈ P) (h : Enough P (I i) s) :
    Wp (bmapEntry ((I i).addr NDIRECT) j) s (fun _ t => Enough P (t.icache k).din t) Stop.onlyTooBig := by
  have hdata := hs.owned.addr_inData hs.lt hs.type (Nat.le_refl NDIRECT) hind
  have hfree : Wp (bmapEntry ((I i).addr NDIRECT) j) s
      (fun _ t => (I i).ptr s.blk (NDIRECT + 1 + j) = 0 → t.free + 1 = s.free) Stop.onlyTooBig := by
    unfold bmapEntry
    simp only [wp_bind, wp_bread]
    rw [← (I i).ptr_entry s.blk hj hind]
    refine wp_ite (fun h0 => ?_) fun h0 => wp_pure.mpr fun h1 => absurd h1 h0
    refine ((balloc_free hs.geom hs.inOp hs.owned (h.pos hp h0)).and (balloc_spec hs.inOp)).bind ?_
      fun _ he => he.1
    rintro a t ⟨ht, hf, -⟩
    simp only [wp_bind, wp_bread]
    refine (bput_only (hf.inOp hs.inOp) _ _).imp ?_
    rintro _ u ⟨hf', -, hu⟩
    refine wp_pure.mpr fun _ => ?_
    rw [← ht, Fs.free_congr hf'.sb fun b hb => ?_]
    rw [hu]
    refine bit_upd _ ?_
    rw [hf.sb] at hb ⊢
    exact hs.geom.bblock_not_inData hb hdata
  have hspec := bmapEntry_spec hs.geom hs.inOp hs.din hs.lt hs.type hs.owned hj hind
  refine (hspec.and hfree).mono ?_ fun _ he => he.2
  rintro a t ⟨⟨d', hm, hptr⟩, hf⟩
  exact hm.enough hs hptr hp h hf

theorem bmap_enough (hs : s.Mappable k i I) {bn : Nat} (hbn : bn < MAXFILE) (hp : dataPos bn ∈ P)
    (hn : NDIRECT ≤ bn → NDIRECT ∈ P) (h : Enough P (I i) s) :
    Wp (bmap k bn) s (fun _ t => Enough P (t.icache k).din t) Stop.onlyTooBig := by
  unfold bmap
  refine wp_ite (fun hd => ?_) fun hd => wp_ite (fun hj => ?_) fun hj => ?_
  · rw [dataPos, if_pos hd] at hp
    exact bmapAddr_enough hs (Nat.le_of_lt hd) hp h
  · have hpos : dataPos bn = NDIRECT + 1 + (bn - NDIRECT) := by
      rw [dataPos, if_neg hd]
      omega
    have hspec := bmapAddr_spec hs.geom hs.inOp hs.din hs.lt hs.type hs.owned (Nat.le_refl NDIRECT)
    refine ((bmapAddr_enough hs (Nat.le_refl _) (hn (by omega)) h).and hspec).bind ?_
      fun _ he => he.1
    rintro ind t ⟨ht, d', hm, -⟩
    have hind : d'.addr NDIRECT = ind := by
      rw [← hm.result, Dinode.ptr_of_le _ _ (Nat.le_refl _)]
    have hs' := hs.map hm
    have hentry := bmapEntry_enough (P := P) hs' hj (by rw [upd_same, hind]; exact hm.ne_zero)
      (hpos ▸ hp) (by rw [hs'.din]; exact ht)
    rwa [upd_same, hind] at hentry
  · simp only [MAXFILE] at hbn
    omega

/-! ## Writing -/

variable {off : Nat}

theorem writePiece_enough (hs : s.Mappable k i I) (hbn : off / BSIZE < MAXFILE)
    (hp : dataPos (off / BSIZE) ∈ P) (hn : NDIRECT ≤ off / BSIZE → NDIRECT ∈ P)
    (h : Enough P (I i) s) (src : List UInt8) :
    Wp (writePiece k off src) s (fun _ t => Enough P (t.icache k).din t) Stop.onlyTooBig := by
  unfold writePiece
  have hspec := bmap_spec hs.geom hs.inOp hs.din hs.lt hs.type hs.owned hbn
  refine ((bmap_enough hs hbn hp hn h).and hspec).bind ?_ fun _ he => he.1
  rintro a t ⟨ht, d', hm, -⟩
  have hs' := hs.map hm
  have ha : (upd I i d' i).block t.blk (off / BSIZE) = a := by rw [upd_same]; exact hm.result
  have hdata := hs'.owned.inData hs'.lt hs'.type (by rw [← Dinode.block, ha]; exact hm.ne_zero)
  rw [← Dinode.block, ha] at hdata
  simp only [wp_bind, wp_bread]
  refine (bput_only hs'.inOp a _).imp ?_
  rintro _ u ⟨hf, hic, hu⟩
  rw [hic]
  refine ht.congr (fun p => ?_) (Fs.free_congr hf.sb fun b hb => ?_)
  · rw [← hs'.din, hu, ← ha]
    exact hs'.owned.block_store hs'.lt hs'.type _ hs'.lt hs'.type p
  · rw [hu]
    exact bit_upd _ (hs'.geom.bblock_not_inData hb hdata)

/-- The positions that the data blocks of the `len` bytes at `off` have, and that of
the indirect block if one of them is listed there. -/
def touched (off len : Nat) : Finset Nat :=
  ((Finset.range len).image fun j => dataPos ((off + j) / BSIZE)) ∪
    ((Finset.range len).filter fun j => NDIRECT ≤ (off + j) / BSIZE).image fun _ => NDIRECT

variable {len : Nat}

theorem dataPos_mem_touched {o : Nat} (h1 : off ≤ o) (h2 : o < off + len) :
    dataPos (o / BSIZE) ∈ touched off len :=
  Finset.mem_union_left _ (Finset.mem_image.mpr
    ⟨o - off, Finset.mem_range.mpr (by omega), by rw [Nat.add_sub_cancel' h1]⟩)

theorem indirect_mem_touched {o : Nat} (h1 : off ≤ o) (h2 : o < off + len)
    (hn : NDIRECT ≤ o / BSIZE) : NDIRECT ∈ touched off len :=
  Finset.mem_union_right _ (Finset.mem_image.mpr
    ⟨o - off, Finset.mem_filter.mpr ⟨Finset.mem_range.mpr (by omega),
      by rw [Nat.add_sub_cancel' h1]; exact hn⟩, rfl⟩)

theorem touched_mono {off' len' : Nat} (h1 : off ≤ off') (h2 : off' + len' ≤ off + len) :
    touched off' len' ⊆ touched off len := by
  intro p hp
  rcases Finset.mem_union.mp hp with hp | hp
  · obtain ⟨j, hj, rfl⟩ := Finset.mem_image.mp hp
    have := Finset.mem_range.mp hj
    exact dataPos_mem_touched (by omega) (by omega)
  · obtain ⟨j, hj, rfl⟩ := Finset.mem_image.mp hp
    obtain ⟨hlt, hn⟩ := Finset.mem_filter.mp hj
    have := Finset.mem_range.mp hlt
    exact indirect_mem_touched (by omega) (by omega) hn

theorem touched_subset (h : off + len ≤ MAXFILE * BSIZE) : touched off len ⊆ Finset.range NPTR := by
  intro p hp
  rcases Finset.mem_union.mp hp with hp | hp
  · obtain ⟨j, hj, rfl⟩ := Finset.mem_image.mp hp
    have hlt := Finset.mem_range.mp hj
    refine Finset.mem_range.mpr (dataPos_lt (Nat.div_lt_of_lt_mul ?_))
    rw [Nat.mul_comm]
    omega
  · obtain ⟨j, -, rfl⟩ := Finset.mem_image.mp hp
    exact Finset.mem_range.mpr (by decide)

theorem writeBlocks_enough : ∀ (fuel off : Nat) (src : List UInt8) (s : Fs) (I : Nat → Dinode),
    s.Mappable k i I → off + src.length ≤ MAXFILE * BSIZE → touched off src.length ⊆ P → Enough P (I i) s →
    Wp (writeBlocks k fuel off src) s (fun _ t => Enough P (t.icache k).din t) Stop.onlyTooBig
  | 0, off, src, s, I, hs, _, _, h => wp_pure.mpr (by rw [← hs.din]; exact h)
  | fuel + 1, off, src, s, I, hs, hmax, hP, h => by
    by_cases h0 : src.length = 0
    · rw [writeBlocks, if_pos h0]
      exact wp_pure.mpr (by rw [← hs.din]; exact h)
    · obtain ⟨m, hm⟩ : ∃ m, m = min src.length (BSIZE - off % BSIZE) := ⟨_, rfl⟩
      have hmod : off % BSIZE < BSIZE := Nat.mod_lt _ (by decide)
      have hlen : (src.take m).length = m := by rw [List.length_take]; omega
      have hone := hs.writePiece off (src.take m) (by omega) (by omega) (by omega)
      have hbn : off / BSIZE < MAXFILE := by
        refine Nat.div_lt_of_lt_mul ?_
        rw [Nat.mul_comm]
        omega
      rw [writeBlocks_succ h0 hm]
      refine ((writePiece_enough hs hbn (hP (dataPos_mem_touched (Nat.le_refl _) (by omega)))
        (fun hn => hP (indirect_mem_touched (Nat.le_refl _) (by omega) hn)) h _).and hone).bind ?_
        fun _ he => he.1
      rintro _ t ⟨ht, d', hw⟩
      have hs' := hs.write hw
      refine writeBlocks_enough fuel _ _ t (upd I i d') hs' ?_ ?_ ?_
      · rw [List.length_drop]
        omega
      · rw [List.length_drop]
        exact (touched_mono (by omega) (by omega)).trans hP
      · rw [hs'.din]
        exact ht

theorem writei_enough (h : s.Loaded k i) (hop : s.InOp) (off : Nat) (src : List UInt8)
    (hP : touched off src.length ⊆ P) (he : Enough P (s.dinode i) s) :
    Wp (writei k src off) s (fun _ t => Enough P (t.icache k).din t) Stop.onlyTooBig := by
  have hs := h.mappable hop
  have hself : Enough P (s.icache k).din s := by rw [h.din]; exact he
  unfold writei
  simp only [wp_bind, wp_inode, h.din]
  refine wp_ite (fun hc => absurd hc h.not_dev) fun _ => wp_ite (fun _ => wp_pure.mpr hself) fun _ =>
    wp_ite (fun _ => wp_pure.mpr hself) fun hm => ?_
  have hspec := writeBlocks_spec (i := i) src.length off src s s.dinode (Nat.le_refl _) hs.geom
    hop hs.din hs.lt hs.type hs.owned (by omega)
  rw [wp_bind]
  refine ((writeBlocks_enough (i := i) src.length off src s s.dinode hs (by omega) hP he).and
    hspec).mono ?_ fun _ he => he.1
  rintro _ t ⟨ht, d', hw⟩
  have hs' := hs.write hw
  simp only [wp_bind, wp_inode]
  refine wp_ite (fun _ => ?_) fun _ => wp_pure.mpr (wp_pure.mpr ht)
  simp only [wp_bind, wp_setDin]
  unfold iupdate
  rw [wp_bind, wp_get]
  refine (bput_only (s := t.setInode k _) hs'.inOp _ _).imp ?_
  rintro _ u ⟨hf, hic, hu⟩
  refine wp_pure.mpr ?_
  have hinum : (t.icache k).inum = i := by
    rw [hw.icache, Fs.withDin, upd_same]
    exact h.inum
  simp only [Fs.icache_setInode, upd_same, Fs.blk_setInode, Fs.sb_setInode, hinum] at hic hu
  have hsb : u.sb = t.sb := hf.sb
  refine ht.congr (fun p => ?_) (Fs.free_congr hsb fun b hb => ?_)
  · rw [hic, upd_same, Dinode.ptr_of_addrs (d := (t.icache k).din) rfl, hu]
    refine Dinode.ptr_congr _ (fun h0 => upd_ne _ _ fun hc => ?_) p
    rw [← hs'.din] at h0 hc
    exact hs'.geom.iblock_not_inData hs'.lt
      (hs'.owned.addr_inData hs'.lt hs'.type (Nat.le_refl _) h0) hc.symm
  · rw [hu]
    exact bit_upd _ (hs'.geom.iblock_ne_bblock hs'.lt b).symm

end Xv6
