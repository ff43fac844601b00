import Xv6.Disk.Layout
import Xv6.Lib.Pool
import Xv6.Lib.Table

/-!
# The blocks of an inode

An inode holds block numbers at `NPTR` positions: the direct addresses, the
address of the indirect block, and the entries of the indirect block. `ptr` is
the block number at a position, and zero if there is none. The content of a
file is read through the positions of its data blocks.

`Owned` is the exact bookkeeping of the data area. A block of the data area is
marked in the free map exactly if it is at one position of one allocated inode,
or in the set `X` of blocks that an operation holds in its hands.
-/

namespace Xv6

open Bytes Table Pool

/-! ## Positions -/

/-- `ip->addrs[i]`. -/
def Dinode.addr (d : Dinode) (i : Nat) : Nat := (d.addrs[i]?.getD 0).toNat

/-- `ip->addrs[i] = a`. -/
def Dinode.setAddr (d : Dinode) (i a : Nat) : Dinode :=
  { d with addrs := d.addrs.setIfInBounds i (UInt32.ofNat a) }

/-- The number of positions of an inode. -/
abbrev NPTR : Nat := MAXFILE + 1

/-- The block number at a position: the addresses in the inode first, then the
entries of the indirect block. -/
def Dinode.ptr (d : Dinode) (blk : Nat → Block) (p : Nat) : Nat :=
  if p ≤ NDIRECT then d.addr p
  else if p < NPTR ∧ d.addr NDIRECT ≠ 0 then
    ((blk (d.addr NDIRECT)).uint (p - (NDIRECT + 1))).toNat
  else 0

/-- The position of data block `bn`. -/
def dataPos (bn : Nat) : Nat := if bn < NDIRECT then bn else bn + 1

/-- The block that holds data block `bn`, or zero. -/
def Dinode.block (d : Dinode) (blk : Nat → Block) (bn : Nat) : Nat := d.ptr blk (dataPos bn)

/-- The byte of the content at offset `o`, zero where no block is mapped. -/
def Dinode.contents (d : Dinode) (blk : Nat → Block) (o : Nat) : UInt8 :=
  if d.block blk (o / BSIZE) = 0 then 0 else byte (blk (d.block blk (o / BSIZE))) (o % BSIZE)

theorem dataPos_ne (bn : Nat) : dataPos bn ≠ NDIRECT := by
  unfold dataPos
  split <;> omega

variable {b : Nat}

theorem dataPos_inj {a : Nat} (h : dataPos a = dataPos b) : a = b := by
  unfold dataPos at h
  split at h <;> split at h <;> omega

theorem dataPos_lt {bn : Nat} (h : bn < MAXFILE) : dataPos bn < NPTR := by
  unfold dataPos
  simp only [NPTR, MAXFILE, NDIRECT, NINDIRECT, BSIZE] at *
  split <;> omega

variable {p : Nat}

theorem Dinode.ptr_of_le (d : Dinode) (blk : Nat → Block) (h : p ≤ NDIRECT) :
    d.ptr blk p = d.addr p := if_pos h

theorem Dinode.ptr_of_ge (d : Dinode) (blk : Nat → Block) (h : NPTR ≤ p) : d.ptr blk p = 0 := by
  have h1 : ¬ p ≤ NDIRECT := by simp only [NPTR, MAXFILE] at h; omega
  rw [Dinode.ptr, if_neg h1, if_neg (by omega)]

theorem Dinode.ptr_congr (d : Dinode) {blk blk' : Nat → Block}
    (h : d.addr NDIRECT ≠ 0 → blk' (d.addr NDIRECT) = blk (d.addr NDIRECT)) (p : Nat) :
    d.ptr blk' p = d.ptr blk p := by
  unfold Dinode.ptr
  split
  · rfl
  · split
    · next h1 => rw [h h1.2]
    · rfl

theorem Dinode.contents_congr (d : Dinode) {blk blk' : Nat → Block}
    (h : ∀ p, d.ptr blk p ≠ 0 → blk' (d.ptr blk p) = blk (d.ptr blk p)) (o : Nat) :
    d.contents blk' o = d.contents blk o := by
  have hp : d.block blk' (o / BSIZE) = d.block blk (o / BSIZE) :=
    d.ptr_congr (fun h0 => by simpa [Dinode.ptr] using h NDIRECT (by simpa [Dinode.ptr] using h0)) _
  unfold Dinode.contents
  rw [hp]
  split
  · rfl
  · next h0 => rw [Dinode.block] at h0 ⊢; rw [h _ h0]

theorem Dinode.ptr_of_addrs {d d' : Dinode} (h : d'.addrs = d.addrs) (blk : Nat → Block) (p : Nat) :
    d'.ptr blk p = d.ptr blk p := by
  unfold Dinode.ptr Dinode.addr
  rw [h]

theorem Dinode.contents_of_addrs {d d' : Dinode} (h : d'.addrs = d.addrs) (blk : Nat → Block)
    (o : Nat) : d'.contents blk o = d.contents blk o := by
  unfold Dinode.contents Dinode.block
  rw [Dinode.ptr_of_addrs h]

variable {i : Nat}

@[simp] theorem Dinode.addr_setAddr_same (d : Dinode) {a : Nat} (hi : i ≤ NDIRECT)
    (ha : a < 2 ^ 32) : (d.setAddr i a).addr i = a := by
  have hi' : i < NDIRECT + 1 := by omega
  simpa [Dinode.addr, Dinode.setAddr, hi'] using ha

@[simp] theorem Dinode.addr_setAddr_ne (d : Dinode) {j : Nat} (a : Nat) (h : j ≠ i) :
    (d.setAddr i a).addr j = d.addr j := by
  simp [Dinode.addr, Dinode.setAddr, Vector.getElem?_setIfInBounds_ne (Ne.symm h)]

/-! ## Geometry -/

/-- The first block of the data area. -/
def Superblock.datastart (sb : Superblock) : Nat := sb.size - sb.nblocks

def Superblock.InData (sb : Superblock) (b : Nat) : Prop := sb.datastart ≤ b ∧ b < sb.size

/-- The areas follow each other: log, inodes, free map, data. -/
structure Superblock.Geom (sb : Superblock) : Prop where
  log_le : 2 ≤ sb.logstart ∧ sb.logstart + sb.nlog ≤ sb.inodestart
  inodes_le : sb.inodestart + sb.ninodes / IPB + 1 ≤ sb.bmapstart
  bmap_le : sb.bmapstart + sb.size / BPB + 1 ≤ sb.datastart
  size_lt : sb.size < 2 ^ 32
  root_lt : ROOTINO < sb.ninodes

variable {sb : Superblock} {blk blk' : Nat → Block} {I I' : Nat → Dinode} {X : Set Nat}

theorem Superblock.Geom.iblock_lt (h : sb.Geom) (hi : i < sb.ninodes) : sb.iblock i < sb.bmapstart := by
  have := Nat.div_le_div_right (c := IPB) (Nat.le_of_lt hi)
  have := h.inodes_le
  unfold Superblock.iblock
  omega

theorem Superblock.Geom.bblock_lt (h : sb.Geom) (hb : b < sb.size) : sb.bblock b < sb.datastart := by
  have := Nat.div_le_div_right (c := BPB) (Nat.le_of_lt hb)
  have := h.bmap_le
  unfold Superblock.bblock
  omega

theorem Superblock.Geom.bmapstart_le (sb : Superblock) (b : Nat) : sb.bmapstart ≤ sb.bblock b :=
  Nat.le_add_left _ _

theorem Superblock.Geom.bmapstart_lt (h : sb.Geom) : sb.bmapstart < sb.datastart :=
  Nat.lt_of_lt_of_le (Nat.lt_succ_of_le (Nat.le_add_right _ _)) h.bmap_le

theorem Superblock.Geom.iblock_ne_zero (h : sb.Geom) (i : Nat) : sb.iblock i ≠ 0 := by
  have : sb.inodestart ≤ sb.iblock i := Nat.le_add_left _ _
  have := h.log_le
  omega

theorem Superblock.Geom.bblock_ne_zero (h : sb.Geom) (b : Nat) : sb.bblock b ≠ 0 := by
  have := Geom.bmapstart_le sb b
  have : sb.inodestart < sb.bmapstart :=
    Nat.lt_of_lt_of_le (Nat.lt_succ_of_le (Nat.le_add_right _ _)) h.inodes_le
  omega

theorem Superblock.Geom.iblock_ne_bblock (h : sb.Geom) (hi : i < sb.ninodes) (b : Nat) :
    sb.iblock i ≠ sb.bblock b := by
  have := h.iblock_lt hi
  have := Geom.bmapstart_le sb b
  omega

theorem Superblock.Geom.iblock_not_inData (h : sb.Geom) (hi : i < sb.ninodes)
    (hb : sb.InData b) : sb.iblock i ≠ b := by
  have := h.iblock_lt hi
  have := h.bmapstart_lt
  have := hb.1
  omega

variable {c : Nat}

theorem Superblock.Geom.bblock_not_inData (h : sb.Geom) (hb : b < sb.size)
    (hc : sb.InData c) : sb.bblock b ≠ c := by
  have := h.bblock_lt hb
  have := hc.1
  omega

theorem Superblock.Geom.inData_ne_zero (h : sb.Geom) (hb : sb.InData b) : b ≠ 0 := by
  have := h.bmapstart_lt
  have := hb.1
  omega

/-! ## Ownership -/

/-- The bit of block `b` in the free map. -/
def Superblock.bit (sb : Superblock) (blk : Nat → Block) (b : Nat) : Bool :=
  (blk (sb.bblock b)).bit (b % BPB)

def Superblock.Used (sb : Superblock) (blk : Nat → Block) (b : Nat) : Prop :=
  sb.InData b ∧ sb.bit blk b = true

/-- The block number at a position of an inode of the table `I`, zero if the
inode is not allocated. -/
def Superblock.own (sb : Superblock) (blk : Nat → Block) (I : Nat → Dinode) (q : Nat × Nat) : Nat :=
  if q.1 < sb.ninodes ∧ (I q.1).type ≠ 0 then (I q.1).ptr blk q.2 else 0

/-- Exact ownership of the blocks by the inodes of the table `I`, but for the
marked blocks of `X`. -/
structure Owned (sb : Superblock) (blk : Nat → Block) (I : Nat → Dinode) (X : Set Nat) : Prop where
  meta_used : ∀ b < sb.datastart, sb.bit blk b = true
  pool : Exact (sb.own blk I) (sb.Used blk) X

theorem Superblock.own_eq (sb : Superblock) (blk : Nat → Block) {I : Nat → Dinode}
    (hi : i < sb.ninodes) (ht : (I i).type ≠ 0) (p : Nat) :
    sb.own blk I (i, p) = (I i).ptr blk p := if_pos ⟨hi, ht⟩

section

variable (h : Owned sb blk I X) (hi : i < sb.ninodes) (ht : (I i).type ≠ 0)

include h hi ht

theorem Owned.inData (hp : (I i).ptr blk p ≠ 0) : sb.InData ((I i).ptr blk p) := by
  rw [← sb.own_eq blk hi ht] at hp ⊢
  exact (h.pool.used_own hp).1

theorem Owned.addr_inData (hle : p ≤ NDIRECT) (hp : (I i).addr p ≠ 0) : sb.InData ((I i).addr p) := by
  rw [← (I i).ptr_of_le blk hle] at hp ⊢
  exact h.inData hi ht hp

theorem Owned.ptr_inj {j q : Nat} (hj : j < sb.ninodes) (hu : (I j).type ≠ 0)
    (he : (I i).ptr blk p = (I j).ptr blk q) (h0 : (I i).ptr blk p ≠ 0) : i = j ∧ p = q := by
  rw [← sb.own_eq blk hi ht] at he h0
  rw [← sb.own_eq blk hj hu] at he
  exact Prod.mk.inj (h.pool.inj _ _ he h0)

end

/-! ## Marking a block -/

def Superblock.mark (sb : Superblock) (blk : Nat → Block) (n : Nat) : Nat → Block :=
  upd blk (sb.bblock n) ((blk (sb.bblock n)).setBit (n % BPB))

def Superblock.unmark (sb : Superblock) (blk : Nat → Block) (n : Nat) : Nat → Block :=
  upd blk (sb.bblock n) ((blk (sb.bblock n)).clearBit (n % BPB))

theorem bblock_inj_mod {n : Nat} (h : sb.bblock b = sb.bblock n) (hm : b % BPB = n % BPB) : b = n := by
  have hd : b / BPB = n / BPB := Nat.add_right_cancel h
  rw [← Nat.div_add_mod b BPB, hd, hm, Nat.div_add_mod]

theorem mod_BPB_lt (n : Nat) : n % BPB < BPB := Nat.mod_lt _ (by decide)

theorem bit_mark (b n : Nat) : sb.bit (sb.mark blk n) b = (sb.bit blk b || decide (b = n)) := by
  unfold Superblock.bit Superblock.mark
  by_cases h : sb.bblock b = sb.bblock n
  · rw [h, upd_same, Block.bit_setBit _ _ (mod_BPB_lt n)]
    congr 2
    exact propext ⟨fun hm => bblock_inj_mod h hm, fun he => by rw [he]⟩
  · rw [upd_ne _ _ h]
    have hne : b ≠ n := fun he => h (by rw [he])
    simp [hne]

theorem bit_unmark (b n : Nat) : sb.bit (sb.unmark blk n) b = (sb.bit blk b && !decide (b = n)) := by
  unfold Superblock.bit Superblock.unmark
  by_cases h : sb.bblock b = sb.bblock n
  · rw [h, upd_same, Block.bit_clearBit _ _ (mod_BPB_lt n)]
    congr 3
    exact propext ⟨fun hm => bblock_inj_mod h hm, fun he => by rw [he]⟩
  · rw [upd_ne _ _ h]
    have hne : b ≠ n := fun he => h (by rw [he])
    simp [hne]

theorem bit_upd (v : Block) (h : sb.bblock b ≠ c) : sb.bit (upd blk c v) b = sb.bit blk b := by
  unfold Superblock.bit
  rw [upd_ne _ _ h]

theorem own_congr (h : ∀ i < sb.ninodes, (I i).type ≠ 0 → (I i).addr NDIRECT ≠ 0 →
      blk' ((I i).addr NDIRECT) = blk ((I i).addr NDIRECT)) (q : Nat × Nat) :
    sb.own blk' I q = sb.own blk I q := by
  unfold Superblock.own
  split
  · next hq => exact Dinode.ptr_congr _ (h q.1 hq.1 hq.2) q.2
  · rfl

theorem own_upd_of_notOwn (v : Block)
    (hc : ∀ i < sb.ninodes, (I i).type ≠ 0 → (I i).addr NDIRECT ≠ 0 → (I i).addr NDIRECT ≠ c)
    (q : Nat × Nat) : sb.own (upd blk c v) I q = sb.own blk I q :=
  own_congr (fun i hi ht h0 => upd_ne _ _ (hc i hi ht h0)) q

theorem Owned.own_upd_meta (h : Owned sb blk I X) (v : Block) (hc : ¬ sb.InData c)
    (q : Nat × Nat) : sb.own (upd blk c v) I q = sb.own blk I q :=
  own_upd_of_notOwn v (fun i hi ht h0 (he : (I i).addr NDIRECT = c) =>
    hc (he ▸ h.addr_inData hi ht (Nat.le_refl _) h0)) q

theorem Owned.alloc (h : Owned sb blk I X) (hg : sb.Geom) {b : Nat} (hb : b < sb.size)
    (hfree : sb.bit blk b = false) : sb.InData b ∧ b ∉ X ∧ (∀ q, sb.own blk I q ≠ b) ∧
      Owned sb (upd (sb.mark blk b) b zeroBlock) I (insert b X) := by
  have hd : sb.InData b := by
    refine ⟨?_, hb⟩
    by_contra hlt
    rw [h.meta_used b (by omega)] at hfree
    cases hfree
  have hu : ¬ sb.Used blk b := fun hu => by rw [hu.2] at hfree; cases hfree
  have hb0 := hg.inData_ne_zero hd
  have hq := fun q => h.pool.own_ne_of_not_used hu q hb0
  have hbit : ∀ c, c < sb.size →
      sb.bit (upd (sb.mark blk b) b zeroBlock) c = (sb.bit blk c || decide (c = b)) := by
    intro c hc
    rw [bit_upd _ (hg.bblock_not_inData hc hd), bit_mark]
  refine ⟨hd, fun hX => hu (h.pool.used_spare hX), hq, ⟨fun c hc => ?_, ?_⟩⟩
  · have : sb.datastart ≤ sb.size := Nat.sub_le _ _
    rw [hbit c (by omega), h.meta_used c hc, Bool.true_or]
  · refine (h.pool.alloc hu hb0 (fun c => ?_)).congr (fun q => ?_) (fun _ => Iff.rfl)
    · unfold Superblock.Used
      constructor
      · rintro ⟨h1, h2⟩
        rw [hbit c h1.2, Bool.or_eq_true, decide_eq_true_iff] at h2
        exact h2.imp (fun h3 => ⟨h1, h3⟩) id
      · rintro (⟨h1, h2⟩ | rfl)
        · exact ⟨h1, by rw [hbit c h1.2, h2, Bool.true_or]⟩
        · exact ⟨hd, by rw [hbit c hb, decide_eq_true rfl, Bool.or_true]⟩
    · rw [own_upd_of_notOwn zeroBlock, Superblock.mark]
      · exact h.own_upd_meta _ (fun hc => hg.bblock_not_inData hb hc rfl) q
      · intro i hi ht h0 he
        refine hq (i, NDIRECT) ?_
        rw [sb.own_eq blk hi ht, Dinode.ptr_of_le _ _ (Nat.le_refl _), he]

theorem Owned.free (h : Owned sb blk I X) (hg : sb.Geom) (hb : b ∈ X) :
    Owned sb (sb.unmark blk b) I (X \ {b}) := by
  have hd := (h.pool.used_spare hb).1
  refine ⟨fun c hc => ?_, ?_⟩
  · have hne : c ≠ b := fun he => by have := hd.1; omega
    rw [bit_unmark, h.meta_used c hc]
    simp [hne]
  · refine (h.pool.free hb (fun c => ?_)).congr (fun q => ?_) (fun _ => Iff.rfl)
    · unfold Superblock.Used
      rw [bit_unmark, Bool.and_eq_true, Bool.not_eq_true', decide_eq_false_iff_not, and_assoc]
    · exact h.own_upd_meta _ (fun hc => hg.bblock_not_inData hd.2 hc rfl) q

end Xv6
