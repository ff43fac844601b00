import Xv6.Disk.Extent

/-!
# Mapping blocks into inodes

What happens to the ownership of the blocks and to the contents of the files when
a block is put at a position of an inode, when a data block is overwritten and
when all positions of an inode are cleared.

A block is put at a position in three ways: in `addrs`, in `addrs` as the
indirect block, and in the indirect block. Each of them changes the block
number at one position and nothing else, and `Placed` is that fact. Placing a
zeroed block changes no content, since an unmapped block reads as zeros.
-/

namespace Xv6

open Bytes Table Pool

variable {sb : Superblock} {blk blk' : Nat → Block} {I : Nat → Dinode} {X : Set Nat}

/-! ## One position changes -/

/-- From `d` over `blk` to `d'` over `blk'`, the block number at position `p`
changes to `b` and no other does. -/
def Placed (d : Dinode) (blk : Nat → Block) (d' : Dinode) (blk' : Nat → Block) (p b : Nat) : Prop :=
  ∀ q, d'.ptr blk' q = if q = p then b else d.ptr blk q

variable {p b : Nat}

theorem placed_setAddr (d : Dinode) (blk : Nat → Block) (hp : p < NDIRECT)
    (hb : b < 2 ^ 32) : Placed d blk (d.setAddr p b) blk p b := by
  intro q
  have hi : (d.setAddr p b).addr NDIRECT = d.addr NDIRECT := d.addr_setAddr_ne b (by omega)
  unfold Dinode.ptr
  by_cases hq : q = p
  · subst hq
    rw [if_pos (by omega), if_pos rfl, d.addr_setAddr_same (by omega) hb]
  · rw [if_neg hq, d.addr_setAddr_ne b hq, hi]

theorem placed_setAddr_indirect (d : Dinode) (blk : Nat → Block) (hb : b < 2 ^ 32)
    (h0 : d.addr NDIRECT = 0) (hz : blk b = zeroBlock) :
    Placed d blk (d.setAddr NDIRECT b) blk NDIRECT b := by
  intro q
  have hi : (d.setAddr NDIRECT b).addr NDIRECT = b := d.addr_setAddr_same (Nat.le_refl _) hb
  unfold Dinode.ptr
  by_cases hq : q = NDIRECT
  · subst hq
    rw [if_pos (Nat.le_refl _), if_pos rfl, hi]
  · rw [if_neg hq]
    split
    · rw [d.addr_setAddr_ne b hq]
    · rw [hi, hz, Block.uint_zeroBlock, h0]
      simp

variable {j : Nat}

theorem placed_setUint (d : Dinode) (blk : Nat → Block) (hj : j < NINDIRECT)
    (hb : b < 2 ^ 32) (h0 : d.addr NDIRECT ≠ 0) : Placed d blk d (upd blk (d.addr NDIRECT)
      ((blk (d.addr NDIRECT)).setUint j (UInt32.ofNat b))) (NDIRECT + 1 + j) b := by
  intro q
  unfold Dinode.ptr
  by_cases hq : q = NDIRECT + 1 + j
  · subst hq
    rw [if_neg (by omega), if_pos ⟨by simp only [NPTR, MAXFILE]; omega, h0⟩, if_pos rfl, upd_same,
      Nat.add_sub_cancel_left, Block.uint_setUint_same _ _ hj]
    simpa using hb
  · rw [if_neg hq]
    split
    · rfl
    · rw [upd_same]
      split
      · rw [Block.uint_setUint_ne _ _ (by omega)]
      · rfl

variable {i : Nat} {d' : Dinode}

theorem Owned.place (h : Owned sb blk I X) (hi : i < sb.ninodes)
    (ht : (I i).type ≠ 0) (ht' : d'.type = (I i).type) (hb : b ∈ X)
    (h0 : (I i).ptr blk p = 0) (hpl : Placed (I i) blk d' blk' p b)
    (hrest : ∀ j < sb.ninodes, j ≠ i → (I j).type ≠ 0 → (I j).addr NDIRECT ≠ 0 →
      blk' ((I j).addr NDIRECT) = blk ((I j).addr NDIRECT))
    (hbit : ∀ c < sb.size, sb.bit blk' c = sb.bit blk c) : Owned sb blk' (upd I i d') (X \ {b}) := by
  have hsz : sb.datastart ≤ sb.size := Nat.sub_le _ _
  have hself : ∀ q, sb.own blk' (upd I i d') (i, q) = if q = p then b else sb.own blk I (i, q) := by
    intro q
    rw [sb.own_eq blk hi ht, sb.own_eq blk' hi (by rw [upd_same, ht']; exact ht), upd_same, hpl q]
  refine ⟨fun c hc => by rw [hbit c (by omega), h.meta_used c hc], ?_⟩
  have hempty : sb.own blk I (i, p) = 0 := by rw [sb.own_eq blk hi ht, h0]
  have hown : sb.own blk' (upd I i d') (i, p) = b := by rw [hself p, if_pos rfl]
  refine Exact.congr (h.pool.assign hempty hb hown ?_) (fun _ => rfl) ?_
  · rintro ⟨j, q⟩ hne
    by_cases hj : j = i
    · subst hj
      have hq : q ≠ p := fun he => hne (by rw [he])
      rw [hself q, if_neg hq]
    · unfold Superblock.own
      simp only [upd_ne _ _ hj]
      split
      · next hc => exact Dinode.ptr_congr _ (hrest j hc.1 hj hc.2) q
      · rfl
  · intro c
    unfold Superblock.Used
    exact and_congr_right fun hc => by rw [hbit c hc.2]

theorem Placed.contents {d : Dinode} (h : Placed d blk d' blk' p b)
    (h0 : d.ptr blk p = 0) (hz : blk' b = zeroBlock)
    (hsame : ∀ bn, d.block blk bn ≠ 0 → blk' (d.block blk bn) = blk (d.block blk bn)) (o : Nat) :
    d'.contents blk' o = d.contents blk o := by
  unfold Dinode.contents
  rw [show d'.block blk' (o / BSIZE) = _ from h (dataPos (o / BSIZE))]
  by_cases hp : dataPos (o / BSIZE) = p
  · have hold : d.block blk (o / BSIZE) = 0 := by rw [Dinode.block, hp, h0]
    rw [if_pos hp, hold, if_pos (rfl : (0 : Nat) = 0), hz, byte_zeroBlock, ite_self]
  · rw [if_neg hp]
    change (if d.block blk (o / BSIZE) = 0 then 0 else byte (blk' (d.block blk (o / BSIZE))) _) = _
    split
    · rfl
    · next h1 => rw [hsame _ h1]

/-! ## A data block is overwritten -/

variable {bn : Nat}

theorem Owned.addr_ne_block (h : Owned sb blk I X) (hi : i < sb.ninodes)
    (ht : (I i).type ≠ 0) (hj : j < sb.ninodes) (hu : (I j).type ≠ 0) (hn : (I j).addr NDIRECT ≠ 0) :
    (I j).addr NDIRECT ≠ (I i).block blk bn := by
  rw [← (I j).ptr_of_le blk (Nat.le_refl NDIRECT)] at hn ⊢
  intro he
  exact dataPos_ne bn (h.ptr_inj hj hu hi ht he hn).2.symm

theorem Owned.store (h : Owned sb blk I X) (hg : sb.Geom) (hi : i < sb.ninodes)
    (ht : (I i).type ≠ 0) (h0 : (I i).block blk bn ≠ 0) (v : Block) :
    Owned sb (upd blk ((I i).block blk bn) v) I X := by
  have hd : sb.InData ((I i).block blk bn) := h.inData hi ht h0
  have hbit : ∀ c < sb.size, sb.bit (upd blk ((I i).block blk bn) v) c = sb.bit blk c :=
    fun c hc => bit_upd v (hg.bblock_not_inData hc hd)
  have hsz : sb.datastart ≤ sb.size := Nat.sub_le _ _
  refine ⟨fun c hc => by rw [hbit c (by omega), h.meta_used c hc], h.pool.congr ?_ ?_⟩
  · exact own_upd_of_notOwn v fun j hj hu hn => h.addr_ne_block hi ht hj hu hn
  · intro c
    unfold Superblock.Used
    exact and_congr_right fun hc => by rw [hbit c hc.2]

section

variable (h : Owned sb blk I X) (hi : i < sb.ninodes) (ht : (I i).type ≠ 0)

include h hi ht

theorem Owned.block_store (v : Block)
    (hj : j < sb.ninodes) (hu : (I j).type ≠ 0) (p : Nat) :
    (I j).ptr (upd blk ((I i).block blk bn) v) p = (I j).ptr blk p :=
  Dinode.ptr_congr _ (fun hn => upd_ne _ _ (h.addr_ne_block hi ht hj hu hn)) p

theorem Owned.contents_store_same (h0 : (I i).block blk bn ≠ 0) (v : Block) (o : Nat) :
    (I i).contents (upd blk ((I i).block blk bn) v) o =
      if o / BSIZE = bn then byte v (o % BSIZE) else (I i).contents blk o := by
  unfold Dinode.contents
  rw [show (I i).block (upd blk ((I i).block blk bn) v) (o / BSIZE) = (I i).block blk (o / BSIZE)
    from h.block_store hi ht v hi ht _]
  by_cases ho : o / BSIZE = bn
  · rw [ho, if_neg h0, if_pos rfl, upd_same]
  · rw [if_neg ho]
    split
    · rfl
    · next h1 =>
        rw [upd_ne]
        intro he
        exact ho (dataPos_inj (h.ptr_inj hi ht hi ht he h1).2)

theorem Owned.contents_store_ne (v : Block) (hj : j < sb.ninodes) (hu : (I j).type ≠ 0) (hne : j ≠ i) (o : Nat) :
    (I j).contents (upd blk ((I i).block blk bn) v) o = (I j).contents blk o :=
  Dinode.contents_congr _
    (fun _ hp => upd_ne _ _ fun he => hne (h.ptr_inj hj hu hi ht he hp).1) o

end

/-! ## One file changes -/

/-- The inode `i` of the table `I` became `d'` and its content became `c`, and
nothing else changed. -/
structure Changed (sb : Superblock) (i : Nat) (I : Nat → Dinode) (blk : Nat → Block) (d' : Dinode)
    (blk' : Nat → Block) (c : Nat → UInt8) : Prop where
  owned : Owned sb blk' (upd I i d') ∅
  fields : d' = { I i with addrs := d'.addrs }
  contents : ∀ o, d'.contents blk' o = c o
  other_ptr : ∀ j < sb.ninodes, j ≠ i → (I j).type ≠ 0 → ∀ p, (I j).ptr blk' p = (I j).ptr blk p
  other_contents : ∀ j < sb.ninodes, j ≠ i → (I j).type ≠ 0 →
    ∀ o, (I j).contents blk' o = (I j).contents blk o
  inodes : ∀ j < sb.ninodes, blk' (sb.iblock j) = blk (sb.iblock j)

theorem Changed.refl (h : Owned sb blk I ∅) :
    Changed sb i I blk (I i) blk ((I i).contents blk) where
  owned := by rwa [upd_eq_self]
  fields := rfl
  contents := fun _ => rfl
  other_ptr := fun _ _ _ _ _ => rfl
  other_contents := fun _ _ _ _ _ => rfl
  inodes := fun _ _ => rfl

theorem Changed.trans {i : Nat} {d₁ d₂ : Dinode} {blk₁ blk₂ : Nat → Block} {c₁ c₂ : Nat → UInt8}
    (h : Changed sb i I blk d₁ blk₁ c₁) (h' : Changed sb i (upd I i d₁) blk₁ d₂ blk₂ c₂) :
    Changed sb i I blk d₂ blk₂ c₂ where
  owned := by simpa using h'.owned
  fields := by
    rw [h'.fields, upd_same, h.fields]
  contents := h'.contents
  other_ptr := fun j hj hne ht p => by
    have := h'.other_ptr j hj hne (by rwa [upd_ne _ _ hne]) p
    rw [upd_ne _ _ hne] at this
    rw [this, h.other_ptr j hj hne ht p]
  other_contents := fun j hj hne ht o => by
    have := h'.other_contents j hj hne (by rwa [upd_ne _ _ hne]) o
    rw [upd_ne _ _ hne] at this
    rw [this, h.other_contents j hj hne ht o]
  inodes := fun j hj => by rw [h'.inodes j hj, h.inodes j hj]

theorem Owned.overwrite (h : Owned sb blk I ∅) (hg : sb.Geom) (hi : i < sb.ninodes)
    (ht : (I i).type ≠ 0) (h0 : (I i).block blk bn ≠ 0) (v : Block) :
    Changed sb i I blk (I i) (upd blk ((I i).block blk bn) v)
      fun o => if o / BSIZE = bn then byte v (o % BSIZE) else (I i).contents blk o where
  owned := by rw [upd_eq_self]; exact h.store hg hi ht h0 v
  fields := rfl
  contents := h.contents_store_same hi ht h0 v
  other_ptr := fun _ hj _ hu p => h.block_store hi ht v hj hu p
  other_contents := fun _ hj hne hu o => h.contents_store_ne hi ht v hj hu hne o
  inodes := fun _ hj => upd_ne _ _ (hg.iblock_not_inData hj (h.inData hi ht h0))

/-- The blocks after `b` was allocated. -/
def Superblock.allocated (sb : Superblock) (blk : Nat → Block) (b : Nat) : Nat → Block :=
  upd (sb.mark blk b) b zeroBlock

theorem allocated_of_inData {c : Nat} (hg : sb.Geom) (hb : b < sb.size) (hc : sb.InData c)
    (hne : c ≠ b) : sb.allocated blk b c = blk c := by
  unfold Superblock.allocated Superblock.mark
  rw [upd_ne _ _ hne, upd_ne _ _ (hg.bblock_not_inData hb hc).symm]

theorem allocated_iblock (hg : sb.Geom) (hd : sb.InData b) (hj : j < sb.ninodes) :
    sb.allocated blk b (sb.iblock j) = blk (sb.iblock j) := by
  unfold Superblock.allocated Superblock.mark
  rw [upd_ne _ _ (hg.iblock_not_inData hj hd), upd_ne _ _ (hg.iblock_ne_bblock hj b)]

theorem Owned.ptr_allocated (h : Owned sb blk I X) (hg : sb.Geom) (hb : b < sb.size)
    (hfree : sb.bit blk b = false) (hj : j < sb.ninodes) (ht : (I j).type ≠ 0) (hp : (I j).ptr blk p ≠ 0) :
    sb.allocated blk b ((I j).ptr blk p) = blk ((I j).ptr blk p) := by
  have hq := (h.alloc hg hb hfree).2.2.1 (j, p)
  rw [sb.own_eq blk hj ht] at hq
  exact allocated_of_inData hg hb (h.inData hj ht hp) hq

theorem Owned.ptr_allocated_eq (h : Owned sb blk I X) (hg : sb.Geom) (hb : b < sb.size)
    (hfree : sb.bit blk b = false) (hj : j < sb.ninodes) (ht : (I j).type ≠ 0) (p : Nat) :
    (I j).ptr (sb.allocated blk b) p = (I j).ptr blk p := by
  refine Dinode.ptr_congr _ (fun h0 => ?_) p
  have := h.ptr_allocated hg hb hfree hj ht (p := NDIRECT)
  rw [Dinode.ptr_of_le _ _ (Nat.le_refl _)] at this
  exact this h0

theorem Owned.addr_cases (h : Owned sb blk I X) (hi : i < sb.ninodes)
    (ht : (I i).type ≠ 0) : (I i).addr NDIRECT = 0 ∨ sb.InData ((I i).addr NDIRECT) := by
  by_cases h0 : (I i).addr NDIRECT = 0
  · exact .inl h0
  · exact .inr (h.addr_inData hi ht (Nat.le_refl _) h0)

theorem Owned.ptr_ne_addr (h : Owned sb blk I X) (hi : i < sb.ninodes)
    (ht : (I i).type ≠ 0) (hj : j < sb.ninodes) (hu : (I j).type ≠ 0) (hne : j ≠ i)
    (hp : (I j).ptr blk p ≠ 0) : (I j).ptr blk p ≠ (I i).addr NDIRECT := by
  rw [← (I i).ptr_of_le blk (Nat.le_refl NDIRECT)]
  exact fun he => hne (h.ptr_inj hj hu hi ht he hp).1

/-- Map a freshly allocated block at an empty position. Besides that, only the
indirect block of the inode itself may have been written. -/
theorem Owned.grow (h : Owned sb blk I ∅) (hg : sb.Geom)
    (hi : i < sb.ninodes) (ht : (I i).type ≠ 0) (hb : b < sb.size)
    (hfree : sb.bit blk b = false) (h0 : (I i).ptr blk p = 0) (hf : d' = { I i with addrs := d'.addrs })
    (hpl : Placed (I i) (sb.allocated blk b) d' blk' p b)
    (hblk : ∀ c, c ≠ (I i).addr NDIRECT → blk' c = sb.allocated blk b c) :
    Changed sb i I blk d' blk' ((I i).contents blk) := by
  obtain ⟨hd, -, hunowned, h1⟩ := h.alloc hg hb hfree
  have hind := h.addr_cases hi ht
  have hptr := fun j hj hu p => h.ptr_allocated_eq hg hb hfree (j := j) hj hu p
  have hz : blk' b = zeroBlock := by
    rw [hblk b, Superblock.allocated, upd_same]
    rcases hind with hz | hin
    · rw [hz]; exact hg.inData_ne_zero hd
    · have := hunowned (i, NDIRECT)
      rw [sb.own_eq blk hi ht, Dinode.ptr_of_le _ _ (Nat.le_refl _)] at this
      exact this.symm
  refine ⟨?_, hf, fun o => ?_, fun j hj hne hu p => ?_, fun j hj hne hu o => ?_, fun j hj => ?_⟩
  · have hd' : d'.type = (I i).type := by rw [hf]
    have hpl' := h1.place hi ht hd' (Set.mem_insert b ∅) (by rw [← h0]; exact hptr i hi ht p) hpl
      (fun j hj hne hu hn => hblk _ (fun he => ?_)) (fun c hc => ?_)
    · simpa using hpl'
    · have := h.ptr_ne_addr hi ht hj hu hne (p := NDIRECT)
      rw [Dinode.ptr_of_le _ _ (Nat.le_refl _)] at this
      exact this hn he
    · unfold Superblock.bit
      rw [hblk]
      · rfl
      · rcases hind with hz | hin
        · rw [hz]; exact hg.bblock_ne_zero c
        · exact hg.bblock_not_inData hc hin
  · rw [hpl.contents (by rw [← h0]; exact hptr i hi ht p) hz (fun bn hbn => hblk _ ?_) o]
    · exact Dinode.contents_congr _ (fun p hp => h.ptr_allocated hg hb hfree hi ht hp) o
    · by_cases hn : (I i).addr NDIRECT = 0
      · rw [hn]; exact hbn
      · exact (h1.addr_ne_block hi ht hi ht hn).symm
  · refine Dinode.ptr_congr _ (fun hn => ?_) p
    have hne' := h.ptr_ne_addr hi ht hj hu hne (p := NDIRECT)
    have hsame := h.ptr_allocated hg hb hfree hj hu (p := NDIRECT)
    rw [Dinode.ptr_of_le _ _ (Nat.le_refl _)] at hne' hsame
    rw [hblk _ (hne' hn), hsame hn]
  · refine Dinode.contents_congr _ (fun p hp => ?_) o
    rw [hblk _ (h.ptr_ne_addr hi ht hj hu hne hp), h.ptr_allocated hg hb hfree hj hu hp]
  · rw [hblk, allocated_iblock hg hd hj]
    rcases hind with hz | hin
    · rw [hz]; exact hg.iblock_ne_zero j
    · exact hg.iblock_not_inData hj hin

end Xv6
