import Xv6.Fs.Transfer
import Xv6.Log.GroupCommit
import Mathlib.Data.Finset.Card

/-!
# Room in the log

A transaction fails when the header is full, so what an operation may log has to
be bounded before it runs. A block that the header lists is absorbed, and the
bound has to know it: the free map, an indirect block and the block of an inode
are logged again and again.

`Room N B c` keeps that account. The blocks of `B` may be logged at any time,
`c` more blocks may be logged, and with all of them the header lists less than
`N` blocks. Logging a block of `B`, or one the header lists, leaves the account
as it is, and any other costs one.
-/

namespace Xv6

open Hoare Table Bytes

/-! ## The account -/

/-- The number under which the header lists block `b`. -/
def logKey (b : Nat) : Nat := (UInt32.ofNat b).toNat

def LogHeader.listed (lh : LogHeader) : Finset Nat := lh.blocks.toFinset

/-- The header has room for the blocks of `B` and for `c` more. -/
structure Log.Room (N : Nat) (B : Finset Nat) (c : Nat) (lg : Log) : Prop where
  le_logsize : N ≤ LOGSIZE
  lt_size : N < lg.size
  lt : lg.lh.n + (B \ lg.lh.listed).card + c < N

variable {N c : Nat} {B : Finset Nat} {lg : Log}

theorem Log.Room.not_tooBig (h : lg.Room N B c) : ¬ lg.tooBig := by
  have h1 := h.le_logsize
  have h2 := h.lt_size
  have h3 := h.lt
  unfold Log.tooBig
  omega

theorem Log.Room.mono {c' : Nat} (h : lg.Room N B c) (hc : c' ≤ c) : lg.Room N B c' :=
  ⟨h.le_logsize, h.lt_size, by have := h.lt; omega⟩

theorem Log.Room.subset {B' : Finset Nat} (h : lg.Room N B c) (hB : B' ⊆ B) : lg.Room N B' c := by
  have hcard := Finset.card_le_card (Finset.sdiff_subset_sdiff hB (Finset.Subset.refl lg.lh.listed))
  exact ⟨h.le_logsize, h.lt_size, by have := h.lt; omega⟩

theorem Log.Room.insert_listed {x : Nat} (h : lg.Room N B c) (hx : x ∈ lg.lh.listed) :
    lg.Room N (insert x B) c := by
  refine ⟨h.le_logsize, h.lt_size, ?_⟩
  rw [Finset.insert_sdiff_of_mem _ hx]
  exact h.lt

/-- The log after `log_write` of block `b`. -/
def Log.write (lg : Log) (b : Nat) : Log := { lg with lh := lg.lh.add (UInt32.ofNat b) }

theorem LogHeader.scan_lt {lh : LogHeader} (hn : lh.n < LOGSIZE) (b : UInt32) : lh.scan b < LOGSIZE := by
  have hle : lh.scan b ≤ lh.blocks.length := List.idxOf_le_length
  rw [LogHeader.length_blocks] at hle
  exact Nat.lt_of_le_of_lt hle hn

variable {b : Nat}

theorem LogHeader.listed_add {lh : LogHeader} (hn : lh.n < LOGSIZE) :
    (lh.add (UInt32.ofNat b)).listed = insert (logKey b) lh.listed := by
  ext x
  simp only [LogHeader.listed, List.mem_toFinset, Finset.mem_insert]
  exact LogHeader.mem_blocks_add (LogHeader.scan_lt hn _) x

theorem Log.Room.listed_write (h : lg.Room N B c) (b : Nat) :
    (lg.write b).lh.listed = insert (logKey b) lg.lh.listed := by
  refine LogHeader.listed_add ?_
  have h1 := h.le_logsize
  have h2 := h.lt
  omega

theorem Log.Room.write_mem (h : lg.Room N B c)
    (hb : logKey b ∈ B ∨ logKey b ∈ lg.lh.listed) : (lg.write b).Room N B c := by
  refine ⟨h.le_logsize, h.lt_size, ?_⟩
  have hlt := h.lt
  rw [h.listed_write]
  by_cases hm : logKey b ∈ lg.lh.listed
  · have hn : (lg.write b).lh.n = lg.lh.n :=
      if_neg fun he => LogHeader.scan_eq_n_iff.mp he (List.mem_toFinset.mp hm)
    rw [Finset.insert_eq_of_mem hm, hn]
    exact hlt
  · have hB : logKey b ∈ B := hb.resolve_right hm
    have hn : (lg.write b).lh.n = lg.lh.n + 1 :=
      if_pos (LogHeader.scan_eq_n_iff.mpr fun he => hm (List.mem_toFinset.mpr he))
    have hcard := Finset.card_erase_add_one (Finset.mem_sdiff.mpr ⟨hB, hm⟩)
    rw [← Finset.sdiff_insert] at hcard
    omega

theorem Log.Room.write_new (h : lg.Room N B (c + 1)) (b : Nat) : (lg.write b).Room N B c := by
  by_cases hb : logKey b ∈ lg.lh.listed
  · exact (h.mono (Nat.le_succ c)).write_mem (.inr hb)
  · have hn : (lg.write b).lh.n = lg.lh.n + 1 :=
      if_pos (LogHeader.scan_eq_n_iff.mpr fun he => hb (List.mem_toFinset.mpr he))
    have hsub : (B \ (lg.write b).lh.listed).card ≤ (B \ lg.lh.listed).card := by
      rw [h.listed_write]
      exact Finset.card_le_card (Finset.sdiff_subset_sdiff (Finset.Subset.refl B)
        (Finset.subset_insert _ _))
    exact ⟨h.le_logsize, h.lt_size, by have := h.lt; omega⟩

/-! ## Storing -/

variable {s : Fs} {k : Fin NINODE}

/-- Nothing but a full log is excluded. -/
def Stop.notTooBig (e : Stop) : Prop := e ≠ .panic .tooBig

theorem bput_log (b : Nat) (v : Block) (hroom : ¬ s.log.tooBig) :
    Wp (bput b v) s (fun _ t => t.log = s.log.write b) Stop.notTooBig := by
  unfold bput logWrite
  simp only [wp_bind, wp_modify, wp_get]
  refine wp_ite (fun hbig => absurd hbig hroom) fun _ => ?_
  exact wp_ite (fun _ => wp_panic.mpr (by intro h; cases h)) fun _ => wp_set.mpr rfl

theorem bput_room_mem (h : s.log.Room N B c) (hb : logKey b ∈ B ∨ logKey b ∈ s.log.lh.listed) (v : Block) :
    Wp (bput b v) s (fun _ t => t.log.Room N B c) Stop.notTooBig := by
  refine (bput_log b v h.not_tooBig).imp fun _ t ht => ?_
  rw [ht]
  exact h.write_mem hb

theorem bput_room (h : s.log.Room N B (c + 1)) (b : Nat) (v : Block) :
    Wp (bput b v) s (fun _ t => t.log.Room N B c ∧ logKey b ∈ t.log.lh.listed) Stop.notTooBig := by
  refine (bput_log b v h.not_tooBig).imp fun _ t ht => ?_
  rw [ht]
  refine ⟨h.write_new b, ?_⟩
  rw [h.listed_write]
  exact Finset.mem_insert_self _ _

variable {β : Nat}

theorem bput_room_cost (hb : logKey b ∈ B ∨ 1 ≤ β) (h : s.log.Room N B (c + β))
    (v : Block) : Wp (bput b v) s (fun _ t => t.log.Room N B c) Stop.notTooBig := by
  rcases hb with hm | hpos
  · exact (bput_room_mem h (.inl hm) v).imp fun _ t ht => ht.mono (Nat.le_add_right c β)
  · exact (bput_room (h.mono (by omega)) _ v).imp fun _ t ht => ht.1

/-- The free map is accounted for, or storing into it costs `β`. -/
def MapCost (B : Finset Nat) (β : Nat) (sb : Superblock) : Prop :=
  ∀ b < sb.size, logKey (sb.bblock b) ∈ B ∨ 1 ≤ β

theorem MapCost.insert {sb : Superblock} (h : MapCost B β sb) (x : Nat) :
    MapCost (insert x B) β sb := fun b hb => (h b hb).imp Finset.mem_insert_of_mem id

theorem iupdate_room {ι : Nat}
    (hi : logKey (s.sb.iblock (s.icache k).inum) ∈ B ∨ 1 ≤ ι) (h : s.log.Room N B (c + ι)) :
    Wp (iupdate k) s (fun _ t => t.log.Room N B c) Stop.notTooBig := by
  unfold iupdate
  rw [wp_bind, wp_get]
  exact bput_room_cost hi h _

theorem balloc_room (hB : MapCost B β s.sb) (h : s.log.Room N B (c + (1 + β))) :
    Wp balloc s (fun b t => t.log.Room N B c ∧ logKey b ∈ t.log.lh.listed) Stop.notTooBig := by
  unfold balloc
  rw [wp_bind, wp_get]
  split
  next b bi hfree =>
    obtain ⟨-, -, hlt, -⟩ := freeBit_some (Nat.dvd_zero _) hfree
    rw [← Nat.add_assoc] at h
    refine (bput_room_cost (hB b (by omega)) h _).seq (fun _ t ht => ?_)
    exact (bput_room ht (b + bi) zeroBlock).seq (fun _ u hu => wp_pure.mpr hu)
  next => exact wp_panic.mpr nofun

/-! ## Mapping a block -/

/-- Block `a` is listed, or there is room for it. -/
def Log.RoomFor (N : Nat) (B : Finset Nat) (c a : Nat) (lg : Log) : Prop :=
  lg.Room N B (c + 1) ∨ lg.Room N B c ∧ logKey a ∈ lg.lh.listed

variable {a : Nat}

theorem bput_roomFor (h : s.log.RoomFor N B c a) (v : Block) :
    Wp (bput a v) s (fun _ t => t.log.Room N B c) Stop.notTooBig := by
  rcases h with h | ⟨h, hl⟩
  · exact (bput_room h a v).imp fun _ t ht => ht.1
  · exact bput_room_mem h (.inr hl) v

/-- What the mapping functions need: the entry `k` has the inode `i` of the table `I`,
whose blocks are owned exactly, and a transaction is open. -/
structure Fs.Mappable (s : Fs) (k : Fin NINODE) (i : Nat) (I : Nat → Dinode) : Prop where
  geom : s.sb.Geom
  inOp : s.InOp
  din : I i = (s.icache k).din
  lt : i < s.sb.ninodes
  type : (I i).type ≠ 0
  owned : Owned s.sb s.blk I ∅

variable {i : Nat} {I : Nat → Dinode}

variable {t : Fs} {d' : Dinode}

theorem Fs.Mappable.of_changed (h : s.Mappable k i I) {f : Nat → UInt8}
    (hf : Frame s t) (hic : t.icache = s.withDin k d') (hc : Changed s.sb i I s.blk d' t.blk f) :
    t.Mappable k i (upd I i d') where
  geom := by rw [hf.sb]; exact h.geom
  inOp := hf.inOp h.inOp
  din := by rw [upd_same, hic, Fs.withDin, upd_same]
  lt := by rw [hf.sb]; exact h.lt
  type := by rw [upd_same, hc.fields]; exact h.type
  owned := by rw [hf.sb]; exact hc.owned

theorem Fs.Mappable.map (h : s.Mappable k i I) {p : Nat}
    (hm : MapPost s k i I p a t d') : t.Mappable k i (upd I i d') :=
  h.of_changed hm.frame hm.icache hm.changed

variable {off : Nat}

theorem Fs.Mappable.write (h : s.Mappable k i I) {src : List UInt8}
    (hw : WritePost s k i I off src t d') : t.Mappable k i (upd I i d') :=
  h.of_changed hw.frame hw.icache hw.changed

theorem Fs.Mappable.writePiece (h : s.Mappable k i I) (off : Nat) (src : List UInt8)
    (hlen : src.length ≤ BSIZE - off % BSIZE) (hpos : 0 < src.length)
    (hmax : off + src.length ≤ MAXFILE * BSIZE) :
    Wp (writePiece k off src) s (fun _ t => ∃ d', WritePost s k i I off src t d') Stop.scarce :=
  writePiece_spec h.geom h.inOp h.din h.lt h.type h.owned hlen hpos hmax

theorem bmapAddr_room (hop : s.InOp) (hB : MapCost B β s.sb) (h : s.log.Room N B (c + (1 + β))) (p : Nat) :
    Wp (bmapAddr k p) s (fun a t => t.log.RoomFor N B c a ∧
      (∀ q, q ≠ p → (t.icache k).din.addr q = (s.icache k).din.addr q) ∧
      ((s.icache k).din.addr p = 0 → t.log.Room N B c ∧ logKey a ∈ t.log.lh.listed) ∧
      ((s.icache k).din.addr p ≠ 0 → t = s ∧ a = (s.icache k).din.addr p)) Stop.notTooBig := by
  unfold bmapAddr
  simp only [wp_bind, wp_inode]
  refine wp_ite (fun h0 => ?_) fun h0 => ?_
  · refine ((balloc_room hB h).and (balloc_spec hop)).bind ?_ fun _ he => he.1
    rintro a t ⟨⟨hr, hl⟩, -, hic, -⟩
    simp only [wp_bind, wp_setDin, wp_pure]
    refine ⟨.inr ⟨hr, hl⟩, fun q hq => ?_, fun _ => ⟨hr, hl⟩, fun h1 => absurd h0 h1⟩
    rw [Fs.icache_setInode, upd_same, hic]
    exact Dinode.addr_setAddr_ne _ _ hq
  · exact wp_pure.mpr ⟨.inl (h.mono (by omega)), fun _ _ => rfl, fun h1 => absurd h1 h0,
      fun _ => ⟨rfl, rfl⟩⟩

theorem bmapEntry_room {ind : Nat} (hop : s.InOp) (hB : MapCost B β s.sb) (hind : logKey ind ∈ B)
    (h : s.log.Room N B (c + (1 + β))) (j : Nat) :
    Wp (bmapEntry ind j) s (fun a t => t.log.RoomFor N B c a ∧ t.icache = s.icache) Stop.notTooBig := by
  unfold bmapEntry
  simp only [wp_bind, wp_bread]
  refine wp_ite (fun _ => ?_) fun _ => wp_pure.mpr ⟨.inl (h.mono (by omega)), rfl⟩
  refine ((balloc_room hB h).and (balloc_spec hop)).bind ?_ fun _ he => he.1
  rintro a t ⟨⟨hr, hl⟩, hf, hic, -⟩
  simp only [wp_bind, wp_bread]
  refine ((bput_log ind _ hr.not_tooBig).and (bput_spec (hf.inOp hop) ind _)).mono ?_ fun _ he => he.1
  rintro _ u ⟨hu, -, hic', -⟩
  refine wp_pure.mpr ⟨.inr ⟨?_, ?_⟩, hic'.trans hic⟩
  · rw [hu]
    exact hr.write_mem (.inl hind)
  · rw [hu, hr.listed_write]
    exact Finset.mem_insert_of_mem hl

/-- The blocks that mapping a block of an inode may log again: its indirect block
too, if it has one. -/
def Dinode.account (B : Finset Nat) (d : Dinode) : Finset Nat :=
  if d.addr NDIRECT = 0 then B else insert (logKey (d.addr NDIRECT)) B

/-- What it costs to give the inode an indirect block. -/
def Dinode.extra (β : Nat) (d : Dinode) : Nat := if d.addr NDIRECT = 0 then 1 + β else 0

theorem Dinode.subset_account (B : Finset Nat) (d : Dinode) : B ⊆ d.account B := by
  unfold Dinode.account
  split
  · exact Finset.Subset.refl B
  · exact Finset.subset_insert _ _

/-- There is room for `c` blocks, and for the indirect block of the inode in `k`. -/
def Fs.Spare (N : Nat) (B : Finset Nat) (β c : Nat) (k : Fin NINODE) (s : Fs) : Prop :=
  s.log.Room N ((s.icache k).din.account B) (c + (s.icache k).din.extra β)

theorem Fs.Spare.eq_of_addr (β c : Nat)
    (h : (t.icache k).din.addr NDIRECT = (s.icache k).din.addr NDIRECT) : t.Spare N B β c k ↔
      t.log.Room N ((s.icache k).din.account B) (c + (s.icache k).din.extra β) := by
  unfold Fs.Spare Dinode.account Dinode.extra
  rw [h]

theorem Fs.Spare.room (h : s.Spare N B β c k) : s.log.Room N B c :=
  (Log.Room.subset h (Dinode.subset_account B _)).mono (Nat.le_add_right _ _)

theorem Fs.Spare.of_indirect {ind : Nat} (h : (t.icache k).din.addr NDIRECT = ind) (h0 : ind ≠ 0) :
    t.Spare N B β c k ↔ t.log.Room N (insert (logKey ind) B) c := by
  unfold Fs.Spare Dinode.account Dinode.extra
  rw [h, if_neg h0, if_neg h0, Nat.add_zero]

/-- `bmap` logs the block it returns if it allocates it, and then the free map and
the indirect block. -/
theorem bmap_room {bn : Nat} (hs : s.Mappable k i I) (hB : MapCost B β s.sb)
    (h : s.Spare N B β (c + (1 + β)) k) : Wp (bmap k bn) s (fun a t => t.Spare N B β (c + 1) k ∨
      t.Spare N B β c k ∧ logKey a ∈ t.log.lh.listed) Stop.notTooBig := by
  have hacct : MapCost ((s.icache k).din.account B) β s.sb := by
    unfold Dinode.account
    split
    · exact hB
    · exact hB.insert _
  unfold bmap
  refine wp_ite (fun hd => ?_) fun hd => wp_ite (fun hj => ?_) fun hj => wp_panic.mpr nofun
  · unfold Fs.Spare at h
    rw [Nat.add_right_comm] at h
    refine (bmapAddr_room hs.inOp hacct h bn).imp ?_
    rintro a t ⟨hr, hq, -, -⟩
    have hn := hq NDIRECT (by omega)
    rw [Fs.Spare.eq_of_addr β _ hn, Fs.Spare.eq_of_addr β _ hn, Nat.add_right_comm]
    exact hr
  · by_cases h0 : (s.icache k).din.addr NDIRECT = 0
    · -- The indirect block is allocated first, and accounted for from then on.
      have hroom : s.log.Room N B (c + (1 + β) + (1 + β)) := by
        unfold Fs.Spare Dinode.account Dinode.extra at h
        rwa [if_pos h0, if_pos h0] at h
      have hspec := bmapAddr_spec hs.geom hs.inOp hs.din hs.lt hs.type hs.owned (Nat.le_refl NDIRECT)
      refine ((bmapAddr_room hs.inOp hB hroom NDIRECT).and hspec).bind ?_ fun _ he => he.1
      rintro ind t ⟨⟨-, -, hr, -⟩, d', hm, -⟩
      obtain ⟨hr, hl⟩ := hr h0
      have hdin : (t.icache k).din.addr NDIRECT = ind := by
        rw [hm.icache, Fs.withDin, upd_same, ← hm.result, Dinode.ptr_of_le _ _ (Nat.le_refl _)]
      have hB' : MapCost (insert (logKey ind) B) β t.sb := by
        rw [hm.frame.sb]
        exact hB.insert _
      refine (bmapEntry_room (hm.frame.inOp hs.inOp) hB' (Finset.mem_insert_self _ _)
        (hr.insert_listed hl) _).imp ?_
      rintro a u ⟨hu, hic⟩
      rw [← hic] at hdin
      rw [Fs.Spare.of_indirect hdin hm.ne_zero, Fs.Spare.of_indirect hdin hm.ne_zero]
      exact hu
    · have hroom := (Fs.Spare.of_indirect rfl h0).mp h
      refine (bmapAddr_room hs.inOp (hB.insert _) hroom NDIRECT).seq ?_
      rintro _ _ ⟨-, -, -, hsame⟩
      obtain ⟨rfl, rfl⟩ := hsame h0
      refine (bmapEntry_room hs.inOp (hB.insert _) (Finset.mem_insert_self _ _) hroom _).imp ?_
      rintro a u ⟨hu, hic⟩
      rw [Fs.Spare.of_indirect (by rw [hic]) h0, Fs.Spare.of_indirect (by rw [hic]) h0]
      exact hu

/-! ## Writing -/

/-- How many blocks the `len` bytes at `off` are spread over. -/
def blocksOf (off len : Nat) : Nat :=
  if len = 0 then 0 else (off + len - 1) / BSIZE - off / BSIZE + 1

theorem blocksOf_succ {len m : Nat} (h : len ≠ 0) (hm : m = min len (BSIZE - off % BSIZE)) :
    blocksOf off len = blocksOf (off + m) (len - m) + 1 := by
  unfold blocksOf
  simp only [BSIZE] at *
  rw [if_neg h]
  by_cases hl : len - m = 0
  · rw [if_pos hl]
    omega
  · rw [if_neg hl]
    omega

theorem bput_spare (hop : s.InOp)
    (h : s.Spare N B β (c + 1) k ∨ s.Spare N B β c k ∧ logKey a ∈ s.log.lh.listed) (v : Block) :
    Wp (bput a v) s (fun _ t => t.Spare N B β c k) Stop.notTooBig := by
  have hroom : s.log.RoomFor N ((s.icache k).din.account B) (c + (s.icache k).din.extra β) a := by
    unfold Fs.Spare at h
    rwa [Nat.add_right_comm] at h
  refine ((bput_roomFor hroom v).and (bput_spec hop a v)).mono ?_ fun _ he => he.1
  rintro _ t ⟨ht, -, hic, -⟩
  unfold Fs.Spare
  rw [hic]
  exact ht

theorem writePiece_room (hs : s.Mappable k i I) (hB : MapCost B β s.sb)
    (h : s.Spare N B β (c + (1 + β)) k) (hbn : off / BSIZE < MAXFILE) (src : List UInt8) :
    Wp (writePiece k off src) s (fun _ t => t.Spare N B β c k) Stop.notTooBig := by
  unfold writePiece
  have hspec := bmap_spec hs.geom hs.inOp hs.din hs.lt hs.type hs.owned hbn
  refine ((bmap_room hs hB h).and hspec).bind ?_ fun _ he => he.1
  rintro a t ⟨hr, d', hm, -⟩
  simp only [wp_bind, wp_bread]
  exact bput_spare (hm.frame.inOp hs.inOp) hr _

/-- The loop of `writei` logs each block it writes, the free map if it allocates
one, and the indirect block. -/
theorem writeBlocks_room : ∀ (fuel off : Nat) (src : List UInt8) (s : Fs) (I : Nat → Dinode),
    s.Mappable k i I → MapCost B β s.sb → off + src.length ≤ MAXFILE * BSIZE →
    s.Spare N B β (c + blocksOf off src.length * (1 + β)) k →
    Wp (writeBlocks k fuel off src) s (fun _ t => t.Spare N B β c k) Stop.notTooBig
  | 0, off, src, s, I, _, _, _, h => wp_pure.mpr (Log.Room.mono h (by omega))
  | fuel + 1, off, src, s, I, hs, hB, hmax, h => by
    by_cases h0 : src.length = 0
    · rw [writeBlocks, if_pos h0]
      exact wp_pure.mpr (Log.Room.mono h (by omega))
    · obtain ⟨m, hm⟩ : ∃ m, m = min src.length (BSIZE - off % BSIZE) := ⟨_, rfl⟩
      have hmod : off % BSIZE < BSIZE := Nat.mod_lt _ (by decide)
      have hlen : (src.take m).length = m := by rw [List.length_take]; omega
      rw [blocksOf_succ h0 hm, Nat.add_mul, Nat.one_mul, ← Nat.add_assoc] at h
      have hone := hs.writePiece off (src.take m) (by omega) (by omega) (by omega)
      have hbn : off / BSIZE < MAXFILE := by
        refine Nat.div_lt_of_lt_mul ?_
        rw [Nat.mul_comm]
        omega
      rw [writeBlocks_succ h0 hm]
      refine ((writePiece_room hs hB h hbn _).and hone).bind ?_ fun _ he => he.1
      rintro _ t ⟨ht, d', hw⟩
      refine writeBlocks_room fuel _ _ t (upd I i d') (hs.write hw) ?_ ?_ ?_
      · rw [hw.frame.sb]
        exact hB
      · rw [List.length_drop]
        omega
      · rw [List.length_drop]
        exact ht

theorem Fs.Loaded.mappable (h : s.Loaded k i) (hop : s.InOp) : s.Mappable k i s.dinode :=
  ⟨h.geom, hop, h.din.symm, h.lt, h.type, h.owned⟩

/-- A `writei` that has room for what it logs: the blocks it writes with their
bits, the indirect block, and the inode. -/
theorem writei_room {ι : Nat} (h : s.Loaded k i) (hop : s.InOp) (off : Nat) (src : List UInt8)
    (hB : MapCost B β s.sb) (hi : logKey (s.sb.iblock i) ∈ B ∨ 1 ≤ ι)
    (hroom : s.Spare N B β (c + ι + blocksOf off src.length * (1 + β)) k) :
    Wp (writei k src off) s (fun _ t => t.log.Room N B c) Stop.notTooBig := by
  have hs := h.mappable hop
  unfold writei
  simp only [wp_bind, wp_inode, h.din]
  refine wp_ite (fun hc => absurd hc h.not_dev) fun _ => wp_ite (fun _ => ?_) fun _ =>
    wp_ite (fun _ => ?_) fun hm => ?_
  · exact wp_pure.mpr (hroom.room.mono (by omega))
  · exact wp_pure.mpr (hroom.room.mono (by omega))
  have hspec := writeBlocks_spec (i := i) src.length off src s s.dinode (Nat.le_refl _) hs.geom
    hop hs.din hs.lt hs.type hs.owned (by omega)
  rw [wp_bind]
  refine ((writeBlocks_room (i := i) src.length off src s s.dinode hs hB (by omega) hroom).and
    hspec).mono ?_ fun _ he => he.1
  rintro _ t ⟨ht, d', hw⟩
  simp only [wp_bind, wp_inode]
  refine wp_ite (fun _ => ?_) fun _ => wp_pure.mpr (wp_pure.mpr (ht.room.mono (by omega)))
  simp only [wp_bind, wp_setDin]
  have hinum : (t.icache k).inum = i := by
    rw [hw.icache, Fs.withDin, upd_same]
    exact h.inum
  refine (iupdate_room (s := t.setInode k _) ?_ ht.room).imp fun _ u hu => wp_pure.mpr hu
  rw [Fs.icache_setInode, upd_same, Fs.sb_setInode, hw.frame.sb, hinum]
  exact hi

end Xv6
