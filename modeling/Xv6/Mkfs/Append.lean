import Xv6.Mkfs.Basic
import Xv6.Fs.InodeSpec

/-!
# Appending to a file of the image

`iappend` is a second implementation of what `bmap` and `writei` do in the
kernel. The image while it is filled is compared with a disk of the kernel
(`Mk.blk`): the free map, which `main` writes at the end, is taken to mark the
blocks below `freeblock` already. On that disk handing out a block is an
allocation, and the facts about ownership and contents that serve the kernel
serve here.
-/

namespace Xv6.Mkfs

open Table Bytes

variable {m m' : Mk} {I : Nat → Dinode} {i off : Nat}

/-! ## The image as a disk -/

theorem sb_geom : sb.Geom :=
  ⟨by decide, by decide, by decide, by decide, by decide⟩

theorem datastart_eq : sb.datastart = nmeta := by decide

/-- The image with the free map in place. -/
def Mk.blk (m : Mk) : Nat → Block := upd m.img sb.bmapstart (bitmapOf m.freeblock)

def Mk.dinode (m : Mk) (i : Nat) : Dinode := (m.img (sb.iblock i)).dinode (i % IPB)

theorem bit_bitmapOf : ∀ {n : Nat}, n ≤ BPB → ∀ b, (bitmapOf n).bit b = decide (b < n)
  | 0, _, b => by
    rw [bitmapOf, Block.bit_eq, byte_zeroBlock]
    simp
  | n + 1, hn, b => by
    rw [bitmapOf, Block.bit_setBit _ _ (by omega), bit_bitmapOf (by omega) b]
    by_cases h : b = n
    · subst h
      simp
    · rw [decide_eq_false h, Bool.or_false]
      exact decide_eq_decide.mpr (by omega)

variable {b : Nat}

theorem bblock_eq (hb : b < BPB) : sb.bblock b = sb.bmapstart := by
  rw [Superblock.bblock, Nat.div_eq_of_lt hb, Nat.zero_add]

theorem Mk.blk_of_ne (m : Mk) {c : Nat} (h : c ≠ sb.bmapstart) : m.blk c = m.img c := upd_ne _ _ h

theorem Mk.bit_blk (m : Mk) (hb : b < BPB) (hf : m.freeblock ≤ BPB) :
    sb.bit m.blk b = decide (b < m.freeblock) := by
  rw [Superblock.bit, bblock_eq hb, Mk.blk, upd_same, Nat.mod_eq_of_lt hb, bit_bitmapOf hf]

theorem Mk.blk_wsect (m : Mk) {c : Nat} (v : Block) (h : c ≠ sb.bmapstart) :
    (wsect m c v).blk = upd m.blk c v := upd_comm _ _ _ h

@[simp] theorem img_wsect (m : Mk) (c : Nat) (v : Block) : (wsect m c v).img = upd m.img c v := rfl

theorem iblock_ne {i : Nat} (hi : i < NINODES) : sb.iblock i ≠ sb.bmapstart := by
  have h : sb.iblock i < sb.bmapstart := sb_geom.iblock_lt hi
  omega

/-! ## Filling -/

/-- The blocks below `freeblock` belong to the inodes of the table `I`, each at one
place, and the others were not written. -/
structure Filling (m : Mk) (I : Nat → Dinode) : Prop where
  super : m.img 1 = sbBlock
  owned : Owned sb m.blk I ∅
  start : nmeta ≤ m.freeblock
  fits : m.freeblock ≤ FSSIZE
  zeros : ∀ b, m.freeblock ≤ b → m.img b = zeroBlock

theorem Filling.le_BPB (h : Filling m I) : m.freeblock ≤ BPB := h.fits.trans (by decide)

variable {p : Nat}

theorem Filling.ptr_lt (h : Filling m I) (hi : i < NINODES) (ht : (I i).type ≠ 0)
    (hp : (I i).ptr m.blk p ≠ 0) : nmeta ≤ (I i).ptr m.blk p ∧ (I i).ptr m.blk p < m.freeblock := by
  have hown := hp
  rw [← sb.own_eq m.blk hi ht] at hown
  have hu := h.owned.pool.used_own hown
  rw [sb.own_eq m.blk hi ht] at hu
  have hlt : (I i).ptr m.blk p < BPB := Nat.lt_trans hu.1.2 (by decide)
  refine ⟨datastart_eq ▸ hu.1.1, ?_⟩
  have hbit := hu.2
  rw [m.bit_blk hlt h.le_BPB] at hbit
  exact of_decide_eq_true hbit

/-- The inode `i` became `d'` in an image that has handed out more blocks, and the
contents of all files are the same. -/
structure Grown (m : Mk) (I : Nat → Dinode) (i : Nat) (d' : Dinode) (m' : Mk) : Prop where
  filling : Filling m' (upd I i d')
  changed : Changed sb i I m.blk d' m'.blk ((I i).contents m.blk)
  freeinode : m'.freeinode = m.freeinode

theorem Filling.grown (h : Filling m I) : Grown m I i (I i) m where
  filling := by rwa [upd_eq_self]
  changed := Changed.refl h.owned
  freeinode := rfl

theorem Grown.trans {d₁ d₂ : Dinode} {m₁ m₂ : Mk} (h₁ : Grown m I i d₁ m₁)
    (h₂ : Grown m₁ (upd I i d₁) i d₂ m₂) : Grown m I i d₂ m₂ where
  filling := by simpa using h₂.filling
  changed := by
    have hc := h₂.changed
    rw [upd_same, funext h₁.changed.contents] at hc
    exact h₁.changed.trans hc
  freeinode := h₂.freeinode.trans h₁.freeinode

theorem Filling.blk_grab (h : Filling m I) (hroom : m.freeblock < FSSIZE) :
    m.grab.blk = sb.allocated m.blk m.freeblock := by
  have hb : m.freeblock < BPB := Nat.lt_trans hroom (by decide)
  have hlo : sb.bmapstart < m.freeblock := Nat.lt_of_lt_of_le (by decide) h.start
  unfold Superblock.allocated Superblock.mark
  funext c
  rw [bblock_eq hb, Nat.mod_eq_of_lt hb]
  by_cases hc : c = m.freeblock
  · rw [hc, upd_same, Mk.blk_of_ne _ (by omega)]
    exact h.zeros _ (Nat.le_refl _)
  · rw [upd_ne _ _ hc]
    by_cases hc' : c = sb.bmapstart
    · rw [hc', upd_same, Mk.blk, upd_same, Mk.blk, upd_same]
      rfl
    · rw [upd_ne _ _ hc', Mk.blk_of_ne _ hc', Mk.blk_of_ne _ hc']
      rfl

theorem Filling.free_bit (h : Filling m I) (hroom : m.freeblock < FSSIZE) :
    sb.bit m.blk m.freeblock = false := by
  rw [m.bit_blk (Nat.lt_trans hroom (by decide)) h.le_BPB]
  exact decide_eq_false (Nat.lt_irrefl _)

theorem Filling.addr (h : Filling m I) (hi : i < NINODES) (ht : (I i).type ≠ 0)
    (hp : p ≤ NDIRECT) (h0 : (I i).addr p = 0) (hroom : m.freeblock < FSSIZE) :
    Grown m I i ((I i).setAddr p m.freeblock) m.grab ∧
      Placed (I i) m.blk ((I i).setAddr p m.freeblock) m.grab.blk p m.freeblock := by
  have hb : m.freeblock < 2 ^ 32 := Nat.lt_trans hroom (by decide)
  have hfree := h.free_bit hroom
  have hz : sb.allocated m.blk m.freeblock m.freeblock = zeroBlock := upd_same _ _ _
  have hpl : Placed (I i) (sb.allocated m.blk m.freeblock) ((I i).setAddr p m.freeblock)
      (sb.allocated m.blk m.freeblock) p m.freeblock := by
    rcases Nat.lt_or_eq_of_le hp with hlt | rfl
    · exact placed_setAddr _ _ hlt hb
    · exact placed_setAddr_indirect _ _ hb h0 hz
  have hc : Changed sb i I m.blk ((I i).setAddr p m.freeblock) (sb.allocated m.blk m.freeblock) _ :=
    h.owned.grow sb_geom hi ht hroom hfree (by rw [Dinode.ptr_of_le _ _ hp, h0]) rfl hpl
      fun _ _ => rfl
  rw [← h.blk_grab hroom] at hc
  refine ⟨⟨⟨h.super, hc.owned, Nat.le_succ_of_le h.start, hroom, fun b hb => h.zeros b ?_⟩, hc, rfl⟩, ?_⟩
  · exact Nat.le_of_succ_le hb
  · intro q
    rw [h.blk_grab hroom, hpl q, h.owned.ptr_allocated_eq sb_geom hroom hfree hi ht]

theorem Filling.entry (h : Filling m I) (hi : i < NINODES) (ht : (I i).type ≠ 0) {j : Nat}
    (hj : j < NINDIRECT) (hind : (I i).addr NDIRECT ≠ 0)
    (h0 : (I i).ptr m.blk (NDIRECT + 1 + j) = 0) (hroom : m.freeblock < FSSIZE) :
    let t := wsect m.grab ((I i).addr NDIRECT)
      ((m.img ((I i).addr NDIRECT)).setUint j (UInt32.ofNat m.freeblock))
    Grown m I i (I i) t ∧ Placed (I i) m.blk (I i) t.blk (NDIRECT + 1 + j) m.freeblock := by
  intro t
  have hb : m.freeblock < 2 ^ 32 := Nat.lt_trans hroom (by decide)
  have hfree := h.free_bit hroom
  have hlt := h.ptr_lt hi ht (p := NDIRECT)
  rw [Dinode.ptr_of_le _ _ (Nat.le_refl _)] at hlt
  obtain ⟨hge, hlt⟩ := hlt hind
  have hne : (I i).addr NDIRECT ≠ sb.bmapstart := by
    have : sb.bmapstart < nmeta := by decide
    omega
  have hind' : sb.allocated m.blk m.freeblock ((I i).addr NDIRECT) = m.img ((I i).addr NDIRECT) := by
    rw [← h.blk_grab hroom, Mk.blk_of_ne _ hne]
    rfl
  have hblk : t.blk = upd (sb.allocated m.blk m.freeblock) ((I i).addr NDIRECT)
      ((sb.allocated m.blk m.freeblock ((I i).addr NDIRECT)).setUint j
        (UInt32.ofNat m.freeblock)) := by
    rw [Mk.blk_wsect _ _ hne, h.blk_grab hroom, hind']
  have hpl := placed_setUint (I i) (sb.allocated m.blk m.freeblock) hj hb hind
  have hc : Changed sb i I m.blk (I i) t.blk ((I i).contents m.blk) := by
    rw [hblk]
    exact h.owned.grow sb_geom hi ht hroom hfree h0 rfl hpl fun c hc => upd_ne _ _ hc
  have hone : (1 : Nat) < nmeta := by decide
  refine ⟨⟨⟨?_, hc.owned, Nat.le_succ_of_le h.start, hroom, fun b hb => ?_⟩, hc, rfl⟩, ?_⟩
  · exact (upd_ne _ _ (by omega)).trans h.super
  · have hb' : m.freeblock + 1 ≤ b := hb
    change upd m.img _ _ b = _
    rw [upd_ne _ _ (by omega)]
    exact h.zeros b (by omega)
  · intro q
    rw [hblk, hpl q, h.owned.ptr_allocated_eq sb_geom hroom hfree hi ht]

/-! ## The blocks of a file -/

/-- The inode has the blocks that `n` bytes need, and no others. -/
structure Spans (d : Dinode) (blk : Nat → Block) (n : Nat) : Prop where
  data : ∀ bn, d.block blk bn ≠ 0 ↔ bn * BSIZE < n
  indirect : d.addr NDIRECT ≠ 0 ↔ NDIRECT * BSIZE < n

/-- The number of blocks that `n` bytes need. -/
def blocksFor (n : Nat) : Nat :=
  (n + BSIZE - 1) / BSIZE + if NDIRECT * BSIZE < n then 1 else 0

theorem blocksFor_mono {a : Nat} (h : a ≤ b) : blocksFor a ≤ blocksFor b := by
  unfold blocksFor
  simp only [BSIZE, NDIRECT]
  split <;> split <;> omega

theorem takeAddr_spec (h : Filling m I) (hi : i < NINODES) (ht : (I i).type ≠ 0)
    (hp : p ≤ NDIRECT) (hroom : (I i).addr p = 0 → m.freeblock < FSSIZE) :
    ∃ m' d', takeAddr m (I i) p = (m', d') ∧ Grown m I i d' m' ∧
      m'.freeblock = m.freeblock + (if (I i).addr p = 0 then 1 else 0) ∧ d'.addr p ≠ 0 ∧
      ∀ q, q ≠ p → d'.ptr m'.blk q = (I i).ptr m.blk q := by
  by_cases h0 : (I i).addr p = 0
  · obtain ⟨hg, hpl⟩ := h.addr hi ht hp h0 (hroom h0)
    refine ⟨m.grab, (I i).setAddr p m.freeblock, if_pos h0, hg, by rw [if_pos h0]; rfl, ?_, ?_⟩
    · have hself := hpl p
      rw [if_pos rfl, Dinode.ptr_of_le _ _ hp] at hself
      rw [hself]
      have : 0 < nmeta := by decide
      have := h.start
      omega
    · intro q hq
      rw [hpl q, if_neg hq]
  · exact ⟨m, I i, if_neg h0, h.grown, by rw [if_neg h0]; rfl, h0, fun _ _ => rfl⟩

theorem rsect_of_lt {c : Nat} (h : c < FSSIZE) : rsect m c = some (m.img c) := if_pos h

theorem takeEntry_spec (h : Filling m I) (hi : i < NINODES) (ht : (I i).type ≠ 0) {j : Nat}
    (hj : j < NINDIRECT) (hind : (I i).addr NDIRECT ≠ 0)
    (hroom : (I i).ptr m.blk (NDIRECT + 1 + j) = 0 → m.freeblock < FSSIZE) :
    ∃ m' x, takeEntry m ((I i).addr NDIRECT) j = some (m', x) ∧ Grown m I i (I i) m' ∧
      m'.freeblock = m.freeblock + (if (I i).ptr m.blk (NDIRECT + 1 + j) = 0 then 1 else 0) ∧
      (I i).ptr m'.blk (NDIRECT + 1 + j) = x ∧ x ≠ 0 ∧
      ∀ q, q ≠ NDIRECT + 1 + j → (I i).ptr m'.blk q = (I i).ptr m.blk q := by
  have hlt := h.ptr_lt hi ht (p := NDIRECT)
  rw [Dinode.ptr_of_le _ _ (Nat.le_refl _)] at hlt
  obtain ⟨hge, hlt⟩ := hlt hind
  have hne : (I i).addr NDIRECT ≠ sb.bmapstart := by
    have : sb.bmapstart < nmeta := by decide
    omega
  have hentry : (I i).ptr m.blk (NDIRECT + 1 + j) =
      ((m.img ((I i).addr NDIRECT)).uint j).toNat := by
    rw [Dinode.ptr_entry _ _ hj hind, m.blk_of_ne hne]
  unfold takeEntry
  rw [rsect_of_lt (Nat.lt_of_lt_of_le hlt h.fits)]
  by_cases h0 : (I i).ptr m.blk (NDIRECT + 1 + j) = 0
  · obtain ⟨hg, hpl⟩ := h.entry hi ht hj hind h0 (hroom h0)
    refine ⟨_, m.freeblock, ?_, hg, by rw [if_pos h0]; rfl, ?_, ?_, fun q hq => ?_⟩
    · change (if _ then _ else _) = _
      rw [if_pos (hentry ▸ h0)]
      rfl
    · rw [hpl, if_pos rfl]
    · have : 0 < nmeta := by decide
      have := h.start
      omega
    · rw [hpl q, if_neg hq]
  · refine ⟨m, (I i).ptr m.blk (NDIRECT + 1 + j), ?_, h.grown, by rw [if_neg h0]; rfl, rfl, h0,
      fun _ _ => rfl⟩
    change (if _ then _ else _) = _
    rw [if_neg (hentry ▸ h0), ← hentry]
    rfl

theorem takeBlock_spec (h : Filling m I) (hi : i < NINODES) (ht : (I i).type ≠ 0)
    (hs : Spans (I i) m.blk off) (hlt : off / BSIZE < MAXFILE)
    (hroom : m.freeblock + blocksFor (off + 1) ≤ FSSIZE + blocksFor off) :
    ∃ m' d', takeBlock m (I i) (off / BSIZE) =
        some (m', d', d'.block m'.blk (off / BSIZE)) ∧ Grown m I i d' m' ∧
      m'.freeblock + blocksFor off = m.freeblock + blocksFor (off + 1) ∧
      d'.block m'.blk (off / BSIZE) ≠ 0 ∧ Spans d' m'.blk (off + 1) := by
  have hmap : (I i).ptr m.blk (dataPos (off / BSIZE)) = 0 ↔ off % BSIZE = 0 := by
    have hd := hs.data (off / BSIZE)
    rw [Dinode.block] at hd
    rw [← not_iff_not, ← ne_eq, hd]
    simp only [BSIZE]
    omega
  by_cases hdir : off / BSIZE < NDIRECT
  · have hpos : dataPos (off / BSIZE) = off / BSIZE := if_pos hdir
    rw [hpos, Dinode.ptr_of_le _ _ (Nat.le_of_lt hdir)] at hmap
    have hneed : blocksFor (off + 1) =
        blocksFor off + if (I i).addr (off / BSIZE) = 0 then 1 else 0 := by
      simp only [hmap, blocksFor, BSIZE, NDIRECT] at *
      split <;> split <;> split <;> omega
    obtain ⟨m', d', he, hg, hfb, hne, hrest⟩ :=
      takeAddr_spec h hi ht (Nat.le_of_lt hdir) fun h0 => by rw [hneed, if_pos h0] at hroom; omega
    have hblock : d'.block m'.blk (off / BSIZE) = d'.addr (off / BSIZE) := by
      rw [Dinode.block, hpos, Dinode.ptr_of_le _ _ (Nat.le_of_lt hdir)]
    refine ⟨m', d', ?_, hg, by omega, by rwa [hblock], ⟨fun bn => ?_, ?_⟩⟩
    · rw [takeBlock, if_pos hdir, he, hblock]
    · by_cases hbn : bn = off / BSIZE
      · subst hbn
        rw [hblock]
        exact iff_of_true hne (by simp only [BSIZE]; omega)
      · have hd := hs.data bn
        rw [Dinode.block, ← hrest _ (fun he => hbn (dataPos_inj (he.trans hpos.symm)))] at hd
        rw [Dinode.block, hd]
        simp only [BSIZE] at *
        omega
    · have hind := hrest NDIRECT (by omega)
      rw [Dinode.ptr_of_le _ _ (Nat.le_refl _), Dinode.ptr_of_le _ _ (Nat.le_refl _)] at hind
      rw [hind, hs.indirect]
      simp only [BSIZE, NDIRECT] at *
      omega
  · have hj : off / BSIZE - NDIRECT < NINDIRECT := by simp only [MAXFILE] at hlt; omega
    have hpos : dataPos (off / BSIZE) = NDIRECT + 1 + (off / BSIZE - NDIRECT) := by
      rw [dataPos, if_neg hdir]
      omega
    have hzero : (I i).addr NDIRECT = 0 ↔ off = NDIRECT * BSIZE := by
      rw [← not_iff_not, ← ne_eq, hs.indirect]
      simp only [BSIZE, NDIRECT] at *
      omega
    have hneed : blocksFor (off + 1) = blocksFor off + (if (I i).addr NDIRECT = 0 then 1 else 0) +
        if (I i).ptr m.blk (dataPos (off / BSIZE)) = 0 then 1 else 0 := by
      simp only [hmap, hzero, blocksFor, BSIZE, NDIRECT] at *
      split <;> split <;> split <;> split <;> omega
    obtain ⟨m₁, d₁, he, hg, hfb, hne, hrest⟩ := takeAddr_spec h hi ht (Nat.le_refl NDIRECT)
      fun h0 => by
        rw [hneed, if_pos h0] at hroom
        split at hroom <;> omega
    have ht₁ : (upd I i d₁ i).type ≠ 0 := by rw [upd_same, hg.changed.fields]; exact ht
    have hsame : d₁.ptr m₁.blk (dataPos (off / BSIZE)) = (I i).ptr m.blk (dataPos (off / BSIZE)) :=
      hrest _ (dataPos_ne _)
    rw [← hsame, hpos] at hneed
    have hentry := takeEntry_spec hg.filling hi ht₁ hj (by rwa [upd_same]) fun h0 => by
      rw [upd_same] at h0
      rw [hneed, if_pos h0] at hroom
      omega
    rw [upd_same] at hentry
    obtain ⟨m₂, x, he₂, hg₂, hfb₂, hx, hx0, hrest₂⟩ := hentry
    have hblock : d₁.block m₂.blk (off / BSIZE) = x := by rw [Dinode.block, hpos, hx]
    have hg' := hg.trans hg₂
    refine ⟨m₂, d₁, ?_, hg', by omega, by rwa [hblock], ⟨fun bn => ?_, ?_⟩⟩
    · rw [takeBlock, if_neg hdir, he, hblock]
      simp only [he₂, Option.bind_eq_bind, Option.bind_some, Option.pure_def]
    · by_cases hbn : bn = off / BSIZE
      · subst hbn
        rw [hblock]
        exact iff_of_true hx0 (by simp only [BSIZE]; omega)
      · have hd := hs.data bn
        have hp : dataPos bn ≠ NDIRECT + 1 + (off / BSIZE - NDIRECT) :=
          fun he => hbn (dataPos_inj (he.trans hpos.symm))
        rw [Dinode.block, ← hrest _ (dataPos_ne bn), ← hrest₂ _ hp] at hd
        rw [Dinode.block, hd]
        simp only [BSIZE] at *
        omega
    · refine iff_of_true hne ?_
      simp only [BSIZE, NDIRECT] at *
      omega

/-! ## The loop -/

theorem Filling.store (h : Filling m I) (hi : i < NINODES) (ht : (I i).type ≠ 0) {bn : Nat}
    (h0 : (I i).block m.blk bn ≠ 0) (v : Block) : let t := wsect m ((I i).block m.blk bn) v
    Filling t I ∧ (∀ q, (I i).ptr t.blk q = (I i).ptr m.blk q) ∧
      Changed sb i I m.blk (I i) t.blk
        fun o => if o / BSIZE = bn then byte v (o % BSIZE) else (I i).contents m.blk o := by
  intro t
  obtain ⟨hge, hlt⟩ := h.ptr_lt hi ht h0
  have hne : (I i).block m.blk bn ≠ sb.bmapstart := by
    have : sb.bmapstart < nmeta := by decide
    change nmeta ≤ (I i).block m.blk bn at hge
    omega
  have hblk : t.blk = upd m.blk ((I i).block m.blk bn) v := m.blk_wsect v hne
  rw [hblk]
  have hone : (1 : Nat) < nmeta := by decide
  change nmeta ≤ (I i).block m.blk bn at hge
  refine ⟨⟨?_, ?_, h.start, h.fits, fun b hb => ?_⟩, fun q => ?_,
    h.owned.overwrite sb_geom hi ht h0 v⟩
  · exact (upd_ne _ _ (by omega)).trans h.super
  · rw [hblk]
    exact h.owned.store sb_geom hi ht h0 v
  · change m.freeblock ≤ b at hb
    change (I i).block m.blk bn < m.freeblock at hlt
    exact (upd_ne _ _ (by omega)).trans (h.zeros b hb)
  · exact h.owned.block_store hi ht v hi ht q

/-- The bytes `p` were stored at the end of the inode `i`, of size `off`. -/
structure Appended (m : Mk) (I : Nat → Dinode) (i off : Nat) (p : List UInt8) (d' : Dinode)
    (m' : Mk) : Prop where
  filling : Filling m' (upd I i d')
  changed : Changed sb i I m.blk d' m'.blk (splice ((I i).contents m.blk) off p)
  freeinode : m'.freeinode = m.freeinode
  freeblock : m'.freeblock + blocksFor off = m.freeblock + blocksFor (off + p.length)
  spans : Spans d' m'.blk (off + p.length)

theorem appended_nil (h : Filling m I) (hs : Spans (I i) m.blk off) :
    Appended m I i off [] (I i) m where
  filling := by rwa [upd_eq_self]
  changed := by
    have hc : splice ((I i).contents m.blk) off [] = (I i).contents m.blk := by
      funext o
      exact if_neg (by simp only [List.length_nil]; omega)
    rw [hc]
    exact Changed.refl h.owned
  freeinode := rfl
  freeblock := rfl
  spans := hs

theorem Appended.trans {p : List UInt8} {n : Nat} {d₁ d₂ : Dinode} {m₁ m₂ : Mk}
    (hn : n ≤ p.length) (h₁ : Appended m I i off (p.take n) d₁ m₁)
    (h₂ : Appended m₁ (upd I i d₁) i (off + n) (p.drop n) d₂ m₂) : Appended m I i off p d₂ m₂ where
  filling := by simpa using h₂.filling
  changed := by
    have hc := h₂.changed
    rw [upd_same, funext h₁.changed.contents, splice_splice _ _ _ hn] at hc
    exact h₁.changed.trans hc
  freeinode := h₂.freeinode.trans h₁.freeinode
  freeblock := by
    have hf₁ := h₁.freeblock
    have hf₂ := h₂.freeblock
    rw [List.length_take, Nat.min_eq_left hn] at hf₁
    rw [List.length_drop, show off + n + (p.length - n) = off + p.length by omega] at hf₂
    omega
  spans := by
    have hs := h₂.spans
    rwa [List.length_drop, show off + n + (p.length - n) = off + p.length by omega] at hs

theorem blocksFor_within {off n : Nat} (hpos : 0 < n) (hn : n ≤ BSIZE - off % BSIZE) :
    blocksFor (off + n) = blocksFor (off + 1) := by
  simp only [blocksFor, BSIZE, NDIRECT] at *
  split <;> split <;> omega

theorem Spans.within {d : Dinode} {blk : Nat → Block} {off n : Nat} (h : Spans d blk (off + 1))
    (hpos : 0 < n) (hn : n ≤ BSIZE - off % BSIZE) : Spans d blk (off + n) where
  data := fun bn => by
    rw [h.data bn]
    simp only [BSIZE] at *
    omega
  indirect := by
    rw [h.indirect]
    simp only [BSIZE, NDIRECT] at *
    omega

theorem appendOne_spec (h : Filling m I) (hi : i < NINODES) (ht : (I i).type ≠ 0)
    (hs : Spans (I i) m.blk off) (hlt : off / BSIZE < MAXFILE) {p : List UInt8}
    (hpos : 0 < p.length) (hlen : p.length ≤ BSIZE - off % BSIZE)
    (hroom : m.freeblock + blocksFor (off + p.length) ≤ FSSIZE + blocksFor off) :
    ∃ m₁ d₁ x, takeBlock m (I i) (off / BSIZE) = some (m₁, d₁, x) ∧ x < FSSIZE ∧
      Appended m I i off p d₁ (wsect m₁ x
        (overlay (m₁.img x) (off % BSIZE) p.length fun i => p.getD i 0)) := by
  rw [blocksFor_within hpos hlen] at hroom
  obtain ⟨m₁, d₁, he, hg, hfb, hne, hs₁⟩ := takeBlock_spec h hi ht hs hlt hroom
  have ht₁ : (upd I i d₁ i).type ≠ 0 := by rw [upd_same, hg.changed.fields]; exact ht
  have hmapped : (upd I i d₁ i).block m₁.blk (off / BSIZE) ≠ 0 := by rwa [upd_same]
  have hst := hg.filling.store hi ht₁ hmapped
    (overlay (m₁.img (d₁.block m₁.blk (off / BSIZE))) (off % BSIZE) p.length fun i => p.getD i 0)
  have hx := hg.filling.ptr_lt hi ht₁ (p := dataPos (off / BSIZE)) (by rwa [upd_same])
  rw [upd_same] at hst hx
  obtain ⟨hfill, hptr, hc⟩ := hst
  refine ⟨m₁, d₁, _, he, Nat.lt_of_lt_of_le hx.2 hg.filling.fits, hfill, ?_, hg.freeinode, ?_, ?_⟩
  · have hsp := splice_overlay (c := (I i).contents m.blk) hlen
      (b := m₁.img (d₁.block m₁.blk (off / BSIZE))) fun o ho => ?_
    · rw [funext hg.changed.contents, hsp] at hc
      exact hg.changed.trans hc
    · rw [← hg.changed.contents o, Dinode.contents, ho, if_neg hne, Mk.blk_of_ne]
      have : sb.bmapstart < nmeta := by decide
      have hge : nmeta ≤ d₁.block m₁.blk (off / BSIZE) := hx.1
      omega
  · rw [blocksFor_within hpos hlen]
    exact hfb
  · have hs₂ := hs₁.within hpos hlen
    refine ⟨fun bn => ?_, hs₂.indirect⟩
    rw [Dinode.block, hptr]
    exact hs₂.data bn

theorem appendFrom_spec (hi : i < NINODES) : ∀ (fuel off : Nat) (p : List UInt8) (m : Mk)
    (I : Nat → Dinode), p.length ≤ fuel → Filling m I → (I i).type ≠ 0 → Spans (I i) m.blk off →
    off + p.length ≤ MAXFILE * BSIZE → m.freeblock + blocksFor (off + p.length) ≤ FSSIZE + blocksFor off →
    ∃ m' d', appendFrom fuel m (I i) off p = some (m', d', off + p.length) ∧ Appended m I i off p d' m'
  | 0, off, p, m, I, hfuel, h, _, hs, _, _ => by
    have h0 : p = [] := List.length_eq_zero_iff.mp (by omega)
    subst h0
    exact ⟨m, I i, rfl, appended_nil h hs⟩
  | fuel + 1, off, p, m, I, hfuel, h, ht, hs, hmax, hroom => by
    unfold appendFrom
    by_cases h0 : p.length = 0
    · have h0' : p = [] := List.length_eq_zero_iff.mp h0
      subst h0'
      exact ⟨m, I i, if_pos rfl, appended_nil h hs⟩
    · have hmod : off % BSIZE < BSIZE := Nat.mod_lt _ (by decide)
      have hbn : off / BSIZE < MAXFILE := by
        refine Nat.div_lt_of_lt_mul ?_
        rw [Nat.mul_comm]
        omega
      have hin : off - off / BSIZE * BSIZE = off % BSIZE := by
        have := Nat.div_add_mod off BSIZE
        rw [Nat.mul_comm]
        omega
      have hleft : (off / BSIZE + 1) * BSIZE - off = BSIZE - off % BSIZE := by
        have := Nat.div_add_mod off BSIZE
        rw [Nat.add_mul, Nat.one_mul, Nat.mul_comm]
        omega
      rw [if_neg h0, if_pos hbn]
      simp only [hin, hleft]
      obtain ⟨n, hn⟩ : ∃ n, n = min p.length (BSIZE - off % BSIZE) := ⟨_, rfl⟩
      rw [← hn]
      have hle : n ≤ p.length := by omega
      have hlen : (p.take n).length = n := by rw [List.length_take]; omega
      have hmono : blocksFor (off + n) ≤ blocksFor (off + p.length) := blocksFor_mono (by omega)
      obtain ⟨m₁, d₁, x, he, hx, ha⟩ := appendOne_spec h hi ht hs hbn (p := p.take n)
        (by rw [hlen]; omega) (by rw [hlen]; omega) (by rw [hlen]; omega)
      rw [← overlay_take hle] at ha
      have hf := ha.freeblock
      have hs₁ := ha.spans
      rw [hlen] at hf hs₁
      have hrec := appendFrom_spec hi fuel (off + n) (p.drop n) _ _
        (by rw [List.length_drop]; omega) ha.filling
        (by rw [upd_same, ha.changed.fields]; exact ht) (by rwa [upd_same])
        (by rw [List.length_drop]; omega)
        (by rw [List.length_drop, show off + n + (p.length - n) = off + p.length by omega]; omega)
      obtain ⟨m₂, d₂, he₂, ha₂⟩ := hrec
      rw [List.length_drop, show off + n + (p.length - n) = off + p.length by omega, upd_same] at he₂
      refine ⟨m₂, d₂, ?_, ha.trans hle ha₂⟩
      rw [he]
      simp only [Option.bind_eq_bind, Option.bind_some, rsect_of_lt hx]
      exact he₂

theorem appendFrom_le : ∀ {fuel off : Nat} {p : List UInt8} {m : Mk} {d : Dinode}
    {r : Mk × Dinode × Nat}, p.length ≤ fuel → appendFrom fuel m d off p = some r → 0 < p.length →
    off + p.length ≤ MAXFILE * BSIZE
  | 0, _, _, _, _, _, hfuel, _, hpos => by omega
  | fuel + 1, off, p, m, d, r, hfuel, he, hpos => by
    unfold appendFrom at he
    rw [if_neg (by omega)] at he
    by_cases hbn : off / BSIZE < MAXFILE
    · rw [if_pos hbn] at he
      obtain ⟨⟨m₁, d₁, x⟩, _, he⟩ := Option.bind_eq_some_iff.mp he
      obtain ⟨buf, _, he⟩ := Option.bind_eq_some_iff.mp he
      by_cases hlast : p.length ≤ (off / BSIZE + 1) * BSIZE - off
      · simp only [BSIZE, MAXFILE, NDIRECT, NINDIRECT] at *
        omega
      · have hrec := appendFrom_le (by rw [List.length_drop]; simp only [BSIZE] at *; omega) he
          (by rw [List.length_drop]; omega)
        rw [List.length_drop] at hrec
        omega
    · rw [if_neg hbn] at he
      cases he

/-! ## Inodes -/

theorem iblock_lt_nmeta (hi : i < NINODES) : sb.iblock i < nmeta :=
  Nat.lt_trans (sb_geom.iblock_lt hi) (by decide)

theorem rinode_eq (hi : i < NINODES) : rinode m i = some (m.dinode i) := by
  unfold rinode
  rw [rsect_of_lt (Nat.lt_trans (iblock_lt_nmeta hi) (by decide))]
  rfl

theorem dinode_wsect (i j : Nat) (d : Dinode) :
    (wsect m (sb.iblock i) ((m.img (sb.iblock i)).setDinode (i % IPB) d)).dinode j =
      upd m.dinode i d j := by
  have hmod : i % IPB < IPB := Nat.mod_lt _ (by decide)
  by_cases hj : j = i
  · subst hj
    rw [upd_same, Mk.dinode, img_wsect, upd_same, Block.dinode_setDinode_same _ _ hmod]
  · rw [upd_ne _ _ hj, Mk.dinode, img_wsect, Mk.dinode]
    by_cases hb : sb.iblock j = sb.iblock i
    · rw [hb, upd_same, Block.dinode_setDinode_ne]
      have hd : j / IPB = i / IPB := Nat.add_right_cancel hb
      intro he
      exact hj (by rw [← Nat.div_add_mod j IPB, hd, he, Nat.div_add_mod])
    · rw [upd_ne _ _ hb]

theorem Filling.winode {d : Dinode} (h : Filling m (upd m.dinode i d)) (hi : i < NINODES) :
    ∃ t, Mkfs.winode m i d = some t ∧ Filling t t.dinode ∧ t.dinode = upd m.dinode i d ∧
      (∀ c, sb.InData c → t.blk c = m.blk c) ∧ t.freeblock = m.freeblock ∧ t.freeinode = m.freeinode := by
  have hlt := iblock_lt_nmeta hi
  have hblk := m.blk_wsect ((m.img (sb.iblock i)).setDinode (i % IPB) d) (iblock_ne hi)
  have htab : (wsect m (sb.iblock i) ((m.img (sb.iblock i)).setDinode (i % IPB) d)).dinode =
      upd m.dinode i d := funext fun j => dinode_wsect i j d
  refine ⟨wsect m (sb.iblock i) ((m.img (sb.iblock i)).setDinode (i % IPB) d), ?_,
    ⟨?_, ?_, h.start, h.fits, fun b hb => ?_⟩, htab, fun c hc => ?_, rfl, rfl⟩
  · unfold Mkfs.winode
    rw [rsect_of_lt (Nat.lt_trans hlt (by decide))]
    rfl
  · have hge : sb.inodestart ≤ sb.iblock i := Nat.le_add_left _ _
    have hlo : 1 < sb.inodestart := by decide
    have hne : 1 ≠ sb.iblock i := by omega
    rw [img_wsect, upd_ne _ _ hne]
    exact h.super
  · rw [htab, hblk]
    exact h.owned.upd_inode sb_geom hi _
  · have hb' : m.freeblock ≤ b := hb
    have := h.start
    exact (upd_ne _ _ (by omega)).trans (h.zeros b hb')
  · rw [hblk, upd_ne _ _ (sb_geom.iblock_not_inData hi hc).symm]

/-! ## Files -/

/-- The inode `i` is a file of the type `type` with the bytes `c`. -/
structure Holds (m : Mk) (i : Nat) (type : Int16) (c : List UInt8) : Prop where
  lt : i < NINODES
  type_ne : type ≠ 0
  fields : m.dinode i = ⟨type, 0, 0, 1, UInt32.ofNat c.length, (m.dinode i).addrs⟩
  fits : c.length ≤ MAXFILE * BSIZE
  spans : Spans (m.dinode i) m.blk c.length
  contents : ∀ o, (m.dinode i).contents m.blk o = c.getD o 0

variable {type : Int16} {c : List UInt8}

theorem Holds.type_eq (h : Holds m i type c) : (m.dinode i).type = type := by rw [h.fields]

theorem Holds.size_eq (h : Holds m i type c) : (m.dinode i).size.toNat = c.length := by
  have hlt : c.length < 2 ^ 32 := Nat.lt_of_le_of_lt h.fits (by decide)
  rw [h.fields]
  simpa using hlt

/-- The inode `j` and its blocks are the same in both images. -/
structure Keeps (m m' : Mk) (j : Nat) : Prop where
  dinode : m'.dinode j = m.dinode j
  ptr : ∀ p, (m.dinode j).ptr m'.blk p = (m.dinode j).ptr m.blk p
  contents : ∀ o, (m.dinode j).contents m'.blk o = (m.dinode j).contents m.blk o

theorem Holds.keep (h : Holds m i type c) (hk : Keeps m m' i) :
    Holds m' i type c where
  lt := h.lt
  type_ne := h.type_ne
  fields := by rw [hk.dinode]; exact h.fields
  fits := h.fits
  spans := by
    rw [hk.dinode]
    refine ⟨fun bn => ?_, h.spans.indirect⟩
    rw [Dinode.block, hk.ptr]
    exact h.spans.data bn
  contents := fun o => by rw [hk.dinode, hk.contents, h.contents]

/-- From `m` to `m'` the file `i` grew from `c` to `c'`, and the others stayed. -/
structure Wrote (m : Mk) (i : Nat) (type : Int16) (c c' : List UInt8) (m' : Mk) : Prop where
  filling : Filling m' m'.dinode
  holds : Holds m' i type c'
  dinode : ∀ j < NINODES, j ≠ i → m'.dinode j = m.dinode j
  keeps : ∀ j < NINODES, j ≠ i → (m.dinode j).type ≠ 0 → Keeps m m' j
  freeinode : m'.freeinode = m.freeinode
  freeblock : m'.freeblock + blocksFor c.length = m.freeblock + blocksFor c'.length

theorem Wrote.trans {type : Int16} {c₁ c₂ c₃ : List UInt8} {m₁ m₂ : Mk}
    (h : Wrote m i type c₁ c₂ m₁) (h' : Wrote m₁ i type c₂ c₃ m₂) : Wrote m i type c₁ c₃ m₂ where
  filling := h'.filling
  holds := h'.holds
  dinode := fun j hlt hj => (h'.dinode j hlt hj).trans (h.dinode j hlt hj)
  keeps := fun j hlt hj ht => by
    have hd := h.dinode j hlt hj
    have hk := h'.keeps j hlt hj (by rwa [hd])
    have hk₁ := h.keeps j hlt hj ht
    refine ⟨hk.dinode.trans hd, fun p => ?_, fun o => ?_⟩
    · rw [← hd, hk.ptr, hd, hk₁.ptr]
    · rw [← hd, hk.contents, hd, hk₁.contents]
  freeinode := h'.freeinode.trans h.freeinode
  freeblock := by
    have := h.freeblock
    have := h'.freeblock
    omega

theorem splice_end (c p : List UInt8) :
    splice (fun o => c.getD o 0) c.length p = fun o => (c ++ p).getD o 0 := by
  funext o
  unfold splice
  by_cases ho : o < c.length
  · rw [if_neg (by omega), List.getD_append _ _ _ _ ho]
  · rw [List.getD_append_right _ _ _ _ (by omega)]
    split
    · rfl
    · change c.getD o 0 = _
      rw [List.getD_eq_default c _ (by omega), List.getD_eq_default p _ (by omega)]

theorem iappend_spec {p : List UInt8} (h : Filling m m.dinode)
    (hh : Holds m i type c) (hmax : c.length + p.length ≤ MAXFILE * BSIZE)
    (hroom : m.freeblock + blocksFor (c.length + p.length) ≤ FSSIZE + blocksFor c.length) :
    ∃ m', iappend m i p = some m' ∧ Wrote m i type c (c ++ p) m' := by
  have ht : (m.dinode i).type ≠ 0 := by rw [hh.type_eq]; exact hh.type_ne
  obtain ⟨m₁, d₁, he, ha⟩ := appendFrom_spec hh.lt p.length c.length p m m.dinode (Nat.le_refl _) h
    ht hh.spans hmax hroom
  have hcont := ha.changed.contents
  rw [funext hh.contents, splice_end] at hcont
  have htab : ∀ j < NINODES, m₁.dinode j = m.dinode j := fun j hj => by
    have hb := ha.changed.inodes j hj
    rw [m₁.blk_of_ne (iblock_ne hj), m.blk_of_ne (iblock_ne hj)] at hb
    rw [Mk.dinode, hb, Mk.dinode]
  obtain ⟨d₂, hd₂⟩ : ∃ d₂, d₂ = { d₁ with size := UInt32.ofNat (c.length + p.length) } := ⟨_, rfl⟩
  have hfill : Filling m₁ (upd m₁.dinode i d₂) := by
    refine ⟨ha.filling.super, ?_, ha.filling.start, ha.filling.fits, ha.filling.zeros⟩
    have ho : Owned sb m₁.blk (upd m.dinode i d₂) ∅ :=
      ha.filling.owned.set_fields (by rw [hd₂]) (by rw [hd₂])
    refine ho.table_congr fun j hj => ?_
    by_cases hji : j = i
    · rw [hji, upd_same, upd_same]
    · rw [upd_ne _ _ hji, upd_ne _ _ hji, htab j hj]
  obtain ⟨m₂, he₂, hf₂, htab₂, hdata, hfb₂, hfi₂⟩ := hfill.winode hh.lt
  have hself : m₂.dinode i = d₂ := by rw [htab₂, upd_same]
  have haddrs : d₂.addrs = d₁.addrs := by rw [hd₂]
  have ht₁ : (upd m.dinode i d₁ i).type ≠ 0 := by rw [upd_same, ha.changed.fields]; exact ht
  have hsame := ha.filling.owned.same_of_data hdata hh.lt ht₁
  rw [upd_same] at hsame
  have hother : ∀ j < NINODES, j ≠ i → m₂.dinode j = m.dinode j := fun j hj hne => by
    rw [htab₂, upd_ne _ _ hne, htab j hj]
  refine ⟨m₂, ?_, hf₂, ⟨hh.lt, hh.type_ne, ?_, ?_, ⟨fun bn => ?_, ?_⟩, fun o => ?_⟩, hother,
    fun j hj hne hu => ⟨hother j hj hne, fun q => ?_, fun o => ?_⟩, hfi₂.trans ha.freeinode, ?_⟩
  · unfold iappend
    rw [rinode_eq hh.lt]
    simp only [Option.bind_eq_bind, Option.bind_some, hh.size_eq, he]
    rw [← hd₂, he₂]
  · rw [hself, hd₂, ha.changed.fields, hh.fields, List.length_append]
  · rw [List.length_append]
    exact hmax
  · rw [hself, Dinode.block, Dinode.ptr_of_addrs haddrs, hsame.1, List.length_append]
    exact ha.spans.data bn
  · rw [hself, show d₂.addr NDIRECT = d₁.addr NDIRECT by rw [hd₂]; rfl, List.length_append]
    exact ha.spans.indirect
  · rw [hself, Dinode.contents_of_addrs haddrs, hsame.2]
    exact hcont o
  · have hj' := ha.filling.owned.same_of_data hdata hj (by rw [upd_ne _ _ hne]; exact hu)
    rw [upd_ne _ _ hne] at hj'
    rw [hj'.1, ha.changed.other_ptr j hj hne hu]
  · have hj' := ha.filling.owned.same_of_data hdata hj (by rw [upd_ne _ _ hne]; exact hu)
    rw [upd_ne _ _ hne] at hj'
    rw [hj'.2, ha.changed.other_contents j hj hne hu]
  · rw [hfb₂, List.length_append]
    exact ha.freeblock

theorem iappend_le {p : List UInt8} (hh : Holds m i type c)
    (he : iappend m i p = some m') (hpos : 0 < p.length) : c.length + p.length ≤ MAXFILE * BSIZE := by
  unfold iappend at he
  rw [rinode_eq hh.lt] at he
  simp only [Option.bind_eq_bind, Option.bind_some, hh.size_eq] at he
  obtain ⟨r, hr, _⟩ := Option.bind_eq_some_iff.mp he
  exact appendFrom_le (Nat.le_refl _) hr hpos

theorem reads_spec : ∀ (reads : List (List UInt8)) (m : Mk) (c : List UInt8),
    Filling m m.dinode → Holds m i type c → c.length + reads.flatten.length ≤ MAXFILE * BSIZE →
    m.freeblock + blocksFor (c.length + reads.flatten.length) ≤ FSSIZE + blocksFor c.length →
    ∃ m', reads.foldlM (fun m buf => iappend m i buf) m = some m' ∧ Wrote m i type c (c ++ reads.flatten) m'
  | [], m, c, h, hh, _, _ => by
    refine ⟨m, rfl, h, ?_, fun _ _ _ => rfl, fun _ _ _ _ => ⟨rfl, fun _ => rfl, fun _ => rfl⟩, rfl, ?_⟩
    · rwa [List.flatten_nil, List.append_nil]
    · rw [List.flatten_nil, List.append_nil]
  | buf :: rest, m, c, h, hh, hmax, hroom => by
    rw [List.flatten_cons, List.length_append] at hmax hroom
    have hmono : blocksFor (c.length + buf.length) ≤
        blocksFor (c.length + (buf.length + rest.flatten.length)) := blocksFor_mono (by omega)
    obtain ⟨m₁, he, hw⟩ := iappend_spec h hh (p := buf) (by omega) (by omega)
    have hf := hw.freeblock
    obtain ⟨m₂, he₂, hw₂⟩ := reads_spec rest m₁ (c ++ buf) hw.filling hw.holds
      (by rw [List.length_append]; omega)
      (by rw [List.length_append] at hf ⊢; rw [Nat.add_assoc]; omega)
    refine ⟨m₂, ?_, ?_⟩
    · rw [List.foldlM_cons, he]
      exact he₂
    · rw [List.flatten_cons, ← List.append_assoc]
      exact hw.trans hw₂

theorem reads_le : ∀ (reads : List (List UInt8)) (m : Mk) (c : List UInt8),
    (∀ r ∈ reads, 0 < r.length) → Filling m m.dinode → Holds m i type c →
    m.freeblock + blocksFor (c.length + reads.flatten.length) ≤ FSSIZE + blocksFor c.length →
    reads.foldlM (fun m buf => iappend m i buf) m = some m' →
    c.length + reads.flatten.length ≤ MAXFILE * BSIZE
  | [], _, _, _, _, hh, _, _ => hh.fits
  | buf :: rest, m, c, hpos, h, hh, hroom, he => by
    rw [List.foldlM_cons] at he
    obtain ⟨m₁, he₁, he₂⟩ := Option.bind_eq_some_iff.mp he
    have hle := iappend_le hh he₁ (hpos buf List.mem_cons_self)
    rw [List.flatten_cons, List.length_append] at hroom ⊢
    have hmono : blocksFor (c.length + buf.length) ≤
        blocksFor (c.length + (buf.length + rest.flatten.length)) := blocksFor_mono (by omega)
    obtain ⟨m₁', he₁', hw⟩ := iappend_spec h hh hle (by omega)
    rw [he₁] at he₁'
    cases he₁'
    have hf := hw.freeblock
    rw [List.length_append] at hf
    have hrec := reads_le rest m₁ (c ++ buf) (fun r hr => hpos r (List.mem_cons_of_mem _ hr))
      hw.filling hw.holds (by rw [List.length_append, Nat.add_assoc]; omega) he₂
    rw [List.length_append] at hrec
    omega

end Xv6.Mkfs
