import Xv6.Fs.Inode
import Xv6.Disk.Mapping

/-!
# What the block layer does

One statement for each function that stores into blocks: `bput`, `balloc`,
`bfree` and `bmap`. All of them keep the tables of the kernel (`Frame`), and
they stop only when the kernel has run out of something (`Stop.scarce`).

`bmap` returns the block that holds data block `bn`. If there was none it maps a
zeroed one, and then the file has gained that block alone (`Changed`).
-/

namespace Xv6

open Hoare Table Scan Bytes

/-! ## Running out -/

/-- The kernel stops because it has run out of blocks, inodes, cache entries or
log space. -/
def Stop.scarce : Stop → Prop
  | .panic .tooBig => True
  | .panic .outOfBlocks => True
  | .panic .iallocNoInodes => True
  | .panic .igetNoInodes => True
  | _ => False

/-- The tables that the block and content layers leave alone. -/
structure Frame (s t : Fs) : Prop where
  sb : t.sb = s.sb
  ftable : t.ftable = s.ftable
  proc : t.proc = s.proc
  cur : t.cur = s.cur
  input : t.input = s.input
  log : t.log = { s.log with lh := t.log.lh }

theorem Frame.refl (s : Fs) : Frame s s := ⟨rfl, rfl, rfl, rfl, rfl, rfl⟩

theorem Frame.trans {s t u : Fs} (h : Frame s t) (h' : Frame t u) : Frame s u where
  sb := h'.sb.trans h.sb
  ftable := h'.ftable.trans h.ftable
  proc := h'.proc.trans h.proc
  cur := h'.cur.trans h.cur
  input := h'.input.trans h.input
  log := by rw [h'.log, h.log]

def Fs.InOp (s : Fs) : Prop := 1 ≤ s.log.outstanding

theorem Frame.inOp {s t : Fs} (h : Frame s t) (hop : s.InOp) : t.InOp := by
  unfold Fs.InOp
  rw [h.log]
  exact hop

theorem frame_setBlk (s : Fs) (b : Nat) (v : Block) : Frame s (s.setBlk b v) :=
  ⟨rfl, rfl, rfl, rfl, rfl, rfl⟩

theorem frame_setInode (s : Fs) (k : Fin NINODE) (f : Inode → Inode) : Frame s (s.setInode k f) :=
  ⟨rfl, rfl, rfl, rfl, rfl, rfl⟩

variable {s : Fs}

/-! ## Storing -/

theorem logWrite_spec (hop : s.InOp) (b : Nat) :
    Wp (logWrite b) s (fun _ t => Frame s t ∧ t.icache = s.icache ∧ t.blk = s.blk) Stop.scarce := by
  unfold logWrite
  rw [wp_bind, wp_get]
  refine wp_ite (fun _ => wp_panic.mpr trivial) (fun _ => wp_ite (fun h => ?_) (fun _ => ?_))
  · unfold Fs.InOp at hop
    omega
  · exact wp_set.mpr ⟨⟨rfl, rfl, rfl, rfl, rfl, rfl⟩, rfl, rfl⟩

theorem bput_spec (hop : s.InOp) (b : Nat) (v : Block) :
    Wp (bput b v) s (fun _ t => Frame s t ∧ t.icache = s.icache ∧ t.blk = upd s.blk b v) Stop.scarce := by
  unfold bput
  rw [wp_bind, wp_modify]
  refine (logWrite_spec (s := s.setBlk b v) hop b).imp ?_
  rintro _ t ⟨hf, hc, hb⟩
  exact ⟨(frame_setBlk s b v).trans hf, hc, hb⟩

/-! ## The allocator -/

theorem freeBit_some : ∀ {fuel b b' bi : Nat}, BPB ∣ b → s.freeBit fuel b = some (b', bi) →
    BPB ∣ b' ∧ bi < BPB ∧ b' + bi < s.sb.size ∧ (s.blk (s.sb.bblock b')).bit bi = false
  | fuel + 1, b, b', bi, hb, h => by
    rw [Fs.freeBit] at h
    split at h
    case isTrue hlt =>
      split at h
      next bi' hscan =>
        obtain ⟨_, h2, h3, _⟩ := firstFrom_some hscan
        cases h
        exact ⟨hb, by omega, by omega, by simpa using h3⟩
      next => exact freeBit_some (Nat.dvd_add hb (Nat.dvd_refl _)) h
    case isFalse => cases h

theorem bblock_add {sb : Superblock} {b bi : Nat} (hb : BPB ∣ b) (hbi : bi < BPB) :
    sb.bblock (b + bi) = sb.bblock b ∧ (b + bi) % BPB = bi := by
  obtain ⟨c, rfl⟩ := hb
  unfold Superblock.bblock
  rw [Nat.mul_add_div (by decide), Nat.div_eq_of_lt hbi, Nat.add_zero,
    Nat.mul_div_cancel_left _ (by decide), Nat.mul_add_mod, Nat.mod_eq_of_lt hbi]
  exact ⟨rfl, rfl⟩

theorem balloc_spec (hop : s.InOp) :
    Wp balloc s (fun b t => Frame s t ∧ t.icache = s.icache ∧ b < s.sb.size ∧
      s.sb.bit s.blk b = false ∧ t.blk = s.sb.allocated s.blk b) Stop.scarce := by
  unfold balloc
  rw [wp_bind, wp_get]
  split
  next b bi hfree =>
    obtain ⟨hb, hbi, hlt, hbit⟩ := freeBit_some (Nat.dvd_zero _) hfree
    obtain ⟨he, hm⟩ : s.sb.bblock (b + bi) = s.sb.bblock b ∧ (b + bi) % BPB = bi :=
      bblock_add hb hbi
    refine (bput_spec hop _ _).seq ?_
    rintro _ t ⟨hf, hc, ht⟩
    refine (bput_spec (hf.inOp hop) (b + bi) zeroBlock).seq ?_
    rintro _ u ⟨hf', hc', hu⟩
    refine wp_pure.mpr ⟨hf.trans hf', hc'.trans hc, hlt, ?_, ?_⟩
    · rw [Superblock.bit, he, hm, hbit]
    · rw [hu, ht, Superblock.allocated, Superblock.mark, he, hm]
  next => exact wp_panic.mpr trivial

theorem bfree_spec (hop : s.InOp) {b : Nat} (hb : s.sb.bit s.blk b = true) :
    Wp (bfree b) s (fun _ t => Frame s t ∧ t.icache = s.icache ∧ t.blk = s.sb.unmark s.blk b)
      Stop.scarce := by
  unfold bfree
  rw [wp_bind, wp_get]
  refine wp_ite (fun _ => ?_) (fun h => absurd hb h)
  exact bput_spec hop _ _

/-! ## Mapping a block -/

variable {k : Fin NINODE} {i : Nat} {I : Nat → Dinode}

/-- The state after the copy of the disk inode in slot `k` became `d`. -/
def Fs.withDin (s : Fs) (k : Fin NINODE) (d : Dinode) : Fin NINODE → Inode :=
  upd s.icache k { s.icache k with din := d }

theorem withDin_self (s : Fs) (k : Fin NINODE) : s.withDin k (s.icache k).din = s.icache :=
  upd_eq_self _ _

/-- What `bmap` and its parts ensure. `p` is the position they return. -/
structure MapPost (s : Fs) (k : Fin NINODE) (i : Nat) (I : Nat → Dinode) (p a : Nat) (t : Fs)
    (d' : Dinode) : Prop where
  frame : Frame s t
  icache : t.icache = s.withDin k d'
  changed : Changed s.sb i I s.blk d' t.blk ((I i).contents s.blk)
  result : d'.ptr t.blk p = a
  ne_zero : a ≠ 0
  same : (I i).ptr s.blk p ≠ 0 → t = s

theorem bmapAddr_spec (hg : s.sb.Geom) (hop : s.InOp) (hI : I i = (s.icache k).din)
    (hi : i < s.sb.ninodes) (ht : (I i).type ≠ 0) (h : Owned s.sb s.blk I ∅) {p : Nat} (hp : p ≤ NDIRECT) :
    Wp (bmapAddr k p) s (fun a t => ∃ d', MapPost s k i I p a t d' ∧
      ∀ q, q ≠ p → d'.ptr t.blk q = (I i).ptr s.blk q) Stop.scarce := by
  unfold bmapAddr inode
  simp only [wp_bind, wp_get, wp_pure]
  rw [← hI]
  refine wp_ite (fun h0 => ?_) (fun h0 => ?_)
  · refine (balloc_spec hop).seq ?_
    rintro b t ⟨hf, hc, hlt, hfree, hblk⟩
    unfold setDin setInode
    simp only [wp_bind, wp_modify, wp_pure]
    have hb32 : b < 2 ^ 32 := Nat.lt_trans hlt hg.size_lt
    have hd := (h.alloc hg hlt hfree).1
    have h0' : (I i).ptr s.blk p = 0 := by rw [Dinode.ptr_of_le _ _ hp, h0]
    have hpl : Placed (I i) (s.sb.allocated s.blk b) ((I i).setAddr p b)
        (s.sb.allocated s.blk b) p b := by
      by_cases hpn : p = NDIRECT
      · subst hpn
        exact placed_setAddr_indirect _ _ hb32 h0 (by rw [Superblock.allocated, upd_same])
      · exact placed_setAddr _ _ (by omega) hb32
    refine ⟨(I i).setAddr p b, ⟨hf.trans (frame_setInode _ _ _), ?_, ?_, ?_,
      hg.inData_ne_zero hd, fun h1 => absurd h0' h1⟩, fun q hq => ?_⟩
    · rw [Fs.setInode, Fs.withDin, hc, hI]
    · change Changed s.sb i I s.blk _ t.blk _
      rw [hblk]
      exact h.grow hg hi ht hlt hfree h0' rfl hpl fun _ _ => rfl
    · change ((I i).setAddr p b).ptr t.blk p = b
      rw [hblk, hpl p, if_pos rfl]
    · change ((I i).setAddr p b).ptr t.blk q = _
      rw [hblk, hpl q, if_neg hq, h.ptr_allocated_eq hg hlt hfree hi ht]
  · refine wp_pure.mpr ⟨I i, ⟨Frame.refl s, ?_, Changed.refl h, Dinode.ptr_of_le _ _ hp, h0,
      fun _ => rfl⟩, fun _ _ => rfl⟩
    rw [hI, withDin_self]

theorem Dinode.ptr_entry (d : Dinode) (blk : Nat → Block) {j : Nat} (hj : j < NINDIRECT)
    (h0 : d.addr NDIRECT ≠ 0) : d.ptr blk (NDIRECT + 1 + j) = ((blk (d.addr NDIRECT)).uint j).toNat := by
  unfold Dinode.ptr
  rw [if_neg (by omega), if_pos ⟨by simp only [NPTR, MAXFILE]; omega, h0⟩, Nat.add_sub_cancel_left]

theorem bmapEntry_spec (hg : s.sb.Geom) (hop : s.InOp) (hI : I i = (s.icache k).din)
    (hi : i < s.sb.ninodes) (ht : (I i).type ≠ 0) (h : Owned s.sb s.blk I ∅) {j : Nat}
    (hj : j < NINDIRECT) (hind : (I i).addr NDIRECT ≠ 0) :
    Wp (bmapEntry ((I i).addr NDIRECT) j) s (fun a t => ∃ d', MapPost s k i I (NDIRECT + 1 + j) a t d' ∧
      ∀ q, q ≠ NDIRECT + 1 + j → d'.ptr t.blk q = (I i).ptr s.blk q) Stop.scarce := by
  have hself : s.icache = s.withDin k (I i) := by rw [hI, withDin_self]
  have hptr := (I i).ptr_entry s.blk hj hind
  unfold bmapEntry bread
  simp only [wp_bind, wp_get, wp_pure]
  rw [← hptr]
  refine wp_ite (fun h0 => ?_) (fun h0 => ?_)
  · refine (balloc_spec hop).seq ?_
    rintro b t ⟨hf, hc, hlt, hfree, hblk⟩
    simp only [wp_bind, wp_get, wp_pure]
    have hb32 : b < 2 ^ 32 := Nat.lt_trans hlt hg.size_lt
    have hd := (h.alloc hg hlt hfree).1
    have hpl := placed_setUint (I i) t.blk hj hb32 hind
    refine (bput_spec (hf.inOp hop) _ _).imp ?_
    rintro _ u ⟨hf', hc', hu⟩
    rw [← hu, hblk] at hpl
    refine ⟨I i, ⟨hf.trans hf', by rw [hc', hc]; exact hself, ?_, ?_, hg.inData_ne_zero hd,
      fun h1 => absurd h0 h1⟩, fun q hq => ?_⟩
    · refine h.grow hg hi ht hlt hfree h0 rfl hpl fun c hcne => ?_
      rw [hu, upd_ne _ _ hcne, hblk]
    · rw [hpl, if_pos rfl]
    · rw [hpl, if_neg hq, h.ptr_allocated_eq hg hlt hfree hi ht]
  · exact wp_pure.mpr ⟨I i, ⟨Frame.refl s, hself, Changed.refl h, rfl, h0, fun _ => rfl⟩,
      fun _ _ => rfl⟩

/-- `bmap` returns the block of data block `bn`, mapping a zeroed one if there
was none. -/
theorem bmap_spec (hg : s.sb.Geom) (hop : s.InOp) (hI : I i = (s.icache k).din)
    (hi : i < s.sb.ninodes) (ht : (I i).type ≠ 0) (h : Owned s.sb s.blk I ∅) {bn : Nat}
    (hbn : bn < MAXFILE) : Wp (bmap k bn) s (fun a t => ∃ d', MapPost s k i I (dataPos bn) a t d' ∧
      ∀ m, m ≠ bn → d'.block t.blk m = (I i).block s.blk m) Stop.scarce := by
  unfold bmap
  refine wp_ite (fun hd => ?_) (fun hd => wp_ite (fun hj => ?_) (fun hj => ?_))
  · refine (bmapAddr_spec hg hop hI hi ht h (Nat.le_of_lt hd)).imp ?_
    rintro a t ⟨d', hpost, hq⟩
    have hpos : dataPos bn = bn := if_pos hd
    rw [hpos]
    exact ⟨d', hpost, fun m hm => hq _ fun he => hm (dataPos_inj (he.trans hpos.symm))⟩
  · have hpos : dataPos bn = NDIRECT + 1 + (bn - NDIRECT) := by
      rw [dataPos, if_neg hd]
      omega
    refine (bmapAddr_spec hg hop hI hi ht h (Nat.le_refl _)).seq ?_
    rintro ind t ⟨d₁, h1, hq1⟩
    have hind : d₁.addr NDIRECT = ind := by rw [← h1.result, Dinode.ptr_of_le _ _ (Nat.le_refl _)]
    have htype : d₁.type = (I i).type := by rw [h1.changed.fields]
    have hdin : (t.icache k).din = d₁ := by rw [h1.icache, Fs.withDin, upd_same]
    have hI1 : upd I i d₁ i = (t.icache k).din := by rw [upd_same, hdin]
    have hg' : t.sb.Geom := by rw [h1.frame.sb]; exact hg
    have howned : Owned t.sb t.blk (upd I i d₁) ∅ := by rw [h1.frame.sb]; exact h1.changed.owned
    have h2 := bmapEntry_spec hg' (h1.frame.inOp hop) hI1 (by rw [h1.frame.sb]; exact hi)
      (by rw [upd_same, htype]; exact ht) howned hj (by rw [upd_same, hind]; exact h1.ne_zero)
    rw [upd_same, hind] at h2
    refine h2.imp ?_
    rintro a u ⟨d₂, h2, hq2⟩
    rw [hpos]
    refine ⟨d₂, ⟨h1.frame.trans h2.frame, ?_, ?_, h2.result, h2.ne_zero, fun hne => ?_⟩,
      fun m hm => ?_⟩
    · rw [h2.icache, Fs.withDin, Fs.withDin, h1.icache, Fs.withDin, upd_upd, upd_same]
    · have hsecond := h2.changed
      rw [h1.frame.sb, upd_same, funext h1.changed.contents] at hsecond
      exact h1.changed.trans hsecond
    · have hmapped : (I i).ptr s.blk NDIRECT ≠ 0 := by
        intro h0
        rw [Dinode.ptr_of_le _ _ (Nat.le_refl _)] at h0
        refine hne ?_
        rw [Dinode.ptr, if_neg (by omega), if_neg fun hc => hc.2 h0]
      have hts := h1.same hmapped
      have hsame := h2.same
      rw [upd_same] at hsame
      rw [hsame ?_, hts]
      rw [hq1 _ (by omega)]
      exact hne
    · have e1 := hq2 (dataPos m) fun he => hm (dataPos_inj (he.trans hpos.symm))
      have e2 := hq1 (dataPos m) (dataPos_ne m)
      exact e1.trans e2
  · simp only [MAXFILE] at hbn
    omega

theorem bmap_mapped {bn : Nat} (h : (s.icache k).din.block s.blk bn ≠ 0) (E : Stop → Prop) :
    Wp (bmap k bn) s (fun a t => a = (s.icache k).din.block s.blk bn ∧ t = s) E := by
  have hlook : ∀ p, (s.icache k).din.addr p ≠ 0 →
      Wp (bmapAddr k p) s (fun a t => a = (s.icache k).din.addr p ∧ t = s) E := by
    intro p h0
    unfold bmapAddr inode
    simp only [wp_bind, wp_get, wp_pure]
    exact wp_ite (fun h1 => absurd h1 h0) fun _ => wp_pure.mpr ⟨rfl, rfl⟩
  unfold bmap
  rw [Dinode.block] at h ⊢
  refine wp_ite (fun hd => ?_) (fun hd => ?_)
  · rw [dataPos, if_pos hd, Dinode.ptr_of_le _ _ (Nat.le_of_lt hd)] at h ⊢
    exact hlook bn h
  · have hpos : dataPos bn = NDIRECT + 1 + (bn - NDIRECT) := by
      rw [dataPos, if_neg hd]
      omega
    rw [hpos] at h ⊢
    have hlt : bn - NDIRECT < NINDIRECT := by
      by_contra hge
      refine h (Dinode.ptr_of_ge _ _ ?_)
      simp only [NPTR, MAXFILE]
      omega
    have h0 : (s.icache k).din.addr NDIRECT ≠ 0 := by
      intro h0
      refine h ?_
      rw [Dinode.ptr, if_neg (by omega), if_neg fun hc => hc.2 h0]
    rw [Dinode.ptr_entry _ _ hlt h0] at h ⊢
    refine wp_ite (fun _ => ?_) (fun hge => absurd hlt hge)
    refine (hlook NDIRECT h0).seq ?_
    rintro _ _ ⟨rfl, rfl⟩
    unfold bmapEntry bread
    simp only [wp_bind, wp_get, wp_pure]
    exact wp_ite (fun h1 => absurd h1 h) fun _ => wp_pure.mpr ⟨rfl, rfl⟩

end Xv6
