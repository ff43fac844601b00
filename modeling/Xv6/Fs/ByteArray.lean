import Xv6.Fs.FreeBlocks

/-!
# A file is a byte array

What `readi` and `writei` do to the bytes of a file or directory, in every state in
which the inodes own their blocks exactly and no file has a hole. Nothing is
assumed about directory entries, so the bytes written to a directory may be any.

The whole range is logged in the transaction of the caller, so a write that fits
returns if the log has room for it, and never returns if the range is longer than
the log.
-/

namespace Xv6

open Hoare Table Bytes

variable {s : Fs} {k : Fin NINODE} {i : Nat} {I : Nat → Dinode}

def Fs.bytes (s : Fs) (i : Nat) : List UInt8 :=
  (List.range (s.dinode i).size.toNat).map ((s.dinode i).contents s.blk)

@[simp] theorem Fs.length_bytes (s : Fs) (i : Nat) : (s.bytes i).length = (s.dinode i).size.toNat := by
  simp [Fs.bytes]

@[simp] theorem Fs.getElem_bytes (s : Fs) (i : Nat) {o : Nat} (h : o < (s.bytes i).length) :
    (s.bytes i)[o] = (s.dinode i).contents s.blk o := by
  simp [Fs.bytes]

/-- The blocks are owned exactly, and no file or directory has a hole. -/
structure Fs.Tidy (s : Fs) : Prop where
  geom : s.sb.Geom
  owned : Owned s.sb s.blk s.dinode ∅
  noHoles : ∀ j < s.sb.ninodes, (s.dinode j).type ≠ 0 → (s.dinode j).type ≠ T_DEV →
    NoHoles s.blk (s.dinode j)

/-- The cache entry `k` has the inode `i`, a file or a directory, in memory. -/
structure Fs.Caches (s : Fs) (k : Fin NINODE) (i : Nat) : Prop where
  lt : i < s.sb.ninodes
  inum : (s.icache k).inum = i
  din : (s.icache k).din = s.dinode i
  type : (s.dinode i).type = T_FILE ∨ (s.dinode i).type = T_DIR

theorem Fs.Tidy.loaded (hs : s.Tidy) (hk : s.Caches k i) : s.Loaded k i := by
  have h0 : (s.dinode i).type ≠ 0 ∧ (s.dinode i).type ≠ T_DEV := by
    rcases hk.type with h | h <;> rw [h] <;> decide
  exact ⟨hs.geom, hs.owned, hk.lt, hk.inum, hk.din, h0.1, h0.2, hs.noHoles i hk.lt h0.1 h0.2⟩

/-! ## Reading -/

variable {off : Nat}

theorem readi_bytes (h : s.Loaded k i) {n : Nat} (hoff : off < 2 ^ 32) (hn : n < 2 ^ 32) :
    readi k off n s = .ok (if (s.bytes i).length < off ∨ 2 ^ 32 ≤ off + n then (-1, [])
      else ((((s.bytes i).drop off).take n).length, ((s.bytes i).drop off).take n), s) := by
  refine eq_of_wp ?_
  rw [Fs.length_bytes]
  unfold readi
  simp only [wp_bind, wp_inode, h.din]
  refine wp_ite (fun hc => absurd hc h.not_dev) fun _ => wp_ite (fun hc => ?_) fun hc => ?_
  · have hbad : (s.dinode i).size.toNat < off ∨ 2 ^ 32 ≤ off + n := by omega
    rw [if_pos hbad]
    exact wp_pure.mpr ⟨rfl, rfl⟩
  · have hgood : ¬ ((s.dinode i).size.toNat < off ∨ 2 ^ 32 ≤ off + n) := by omega
    rw [if_neg hgood]
    obtain ⟨m, hm⟩ : ∃ m, m = if (s.dinode i).size.toNat < off + n then
      (s.dinode i).size.toNat - off else n := ⟨_, rfl⟩
    rw [← hm]
    have hmin : m = min n ((s.dinode i).size.toNat - off) := by
      rw [hm]
      split <;> omega
    clear hm
    have hbytes : ((s.bytes i).drop off).take n =
        (List.range m).map fun j => (s.dinode i).contents s.blk (off + j) := by
      refine List.ext_getElem ?_ fun j h1 h2 => ?_
      · simp only [List.length_take, List.length_drop, Fs.length_bytes, List.length_map,
          List.length_range]
        omega
      · simp
    refine (readBlocks_spec _ m off m (Nat.le_refl _) fun o h1 h2 => ?_).seq ?_
    · rw [h.din]
      exact h.noHoles.2 o (by omega)
    · rintro bs t ⟨rfl, rfl⟩
      rw [h.din, hbytes, List.length_map, List.length_range]
      exact wp_pure.mpr ⟨rfl, rfl⟩

/-! ## Writing -/

variable {src : List UInt8} {t : Fs} {e : Dinode}

theorem Stored.bytes
    (h : Stored s k i off src t e) (hi : i < s.sb.ninodes) (hfit : off ≤ (s.dinode i).size.toNat) :
    t.bytes i = (s.bytes i).take off ++ src ++ (s.bytes i).drop (off + src.length) := by
  have hd : t.dinode i = e := by rw [h.table i hi, upd_same]
  refine List.ext_getElem ?_ fun o h1 h2 => ?_
  · simp only [Fs.length_bytes, hd, h.size, List.length_append, List.length_take, List.length_drop]
    omega
  · rw [Fs.getElem_bytes, hd, h.contents, splice]
    simp only [List.getElem_append, List.length_append, List.length_take, Fs.length_bytes,
      List.getElem_take, List.getElem_drop, Fs.getElem_bytes, Nat.min_eq_left hfit]
    by_cases hr : off ≤ o ∧ o < off + src.length
    · rw [if_pos hr, dif_pos hr.2, dif_neg (by omega),
        List.getD_eq_getElem _ _ (by omega)]
    · rw [if_neg hr]
      by_cases ho : o < off
      · rw [dif_pos (by omega), dif_pos ho]
      · rw [dif_neg (by omega)]
        congr 1
        omega

theorem Stored.bytes_other (h : Stored s k i off src t e) {j : Nat} (hj : j < s.sb.ninodes) (hne : j ≠ i) :
    t.dinode j = s.dinode j ∧ ((s.dinode j).type ≠ 0 → t.bytes j = s.bytes j) := by
  have hd : t.dinode j = s.dinode j := by rw [h.table j hj, upd_ne _ _ hne]
  refine ⟨hd, fun ht => ?_⟩
  unfold Fs.bytes
  rw [hd]
  exact List.map_congr_left fun o _ => h.other_contents j hj hne ht o

theorem Stored.tidy (h : Stored s k i off src t e) (hs : s.Tidy) : t.Tidy := by
  have hsb := h.frame.sb
  refine ⟨by rw [hsb]; exact hs.geom, ?_, fun j hj ht hd => ?_⟩
  · rw [hsb]
    exact h.owned.table_congr h.table
  · rw [hsb] at hj
    rw [h.table j hj] at ht hd ⊢
    by_cases he : j = i
    · rw [he, upd_same]
      exact h.noHoles
    · rw [upd_ne _ _ he] at ht hd ⊢
      have hold := hs.noHoles j hj ht hd
      refine ⟨hold.1, fun o ho => ?_⟩
      rw [Dinode.block, h.other_ptr j hj he ht]
      exact hold.2 o ho

/-- The blocks that have to be allocated to write `len` bytes at `off`. -/
def Fs.missing (s : Fs) (i off len : Nat) : Nat :=
  ((touched off len).filter fun p => (s.dinode i).ptr s.blk p = 0).card

/-- The header has room for `c` more blocks. -/
def Fs.LogRoom (s : Fs) (c : Nat) : Prop :=
  s.log.lh.n + c ≤ LOGSIZE ∧ s.log.lh.n + c < s.log.size

theorem Fs.LogRoom.spare {c : Nat} (h : s.LogRoom (c + 3)) : s.Spare (s.log.lh.n + (c + 3)) ∅ 1 c k := by
  unfold Fs.Spare Dinode.account Dinode.extra
  split
  · exact ⟨h.1, h.2, by simp⟩
  · refine ⟨h.1, h.2, ?_⟩
    have hcard := Finset.card_le_card (Finset.sdiff_subset
      (s := {logKey ((s.icache k).din.addr NDIRECT)}) (t := s.log.lh.listed))
    rw [Finset.card_singleton] at hcard
    simp only [insert_empty_eq]
    omega

theorem writei_roomy (h : s.Loaded k i) (hop : s.InOp) (off : Nat) (src : List UInt8)
    (hlog : s.LogRoom (2 * blocksOf off src.length + 4)) :
    Wp (writei k src off) s (fun _ _ => True) Stop.notTooBig := by
  have hspare : s.Spare (s.log.lh.n + (2 * blocksOf off src.length + 4)) ∅ 1
      (0 + 1 + blocksOf off src.length * (1 + 1)) k := by
    have hsp := Fs.LogRoom.spare (k := k) (c := 2 * blocksOf off src.length + 1) hlog
    rwa [show 0 + 1 + blocksOf off src.length * (1 + 1) = 2 * blocksOf off src.length + 1 by omega]
  exact (writei_room h hop off src (fun _ _ => .inr (Nat.le_refl 1)) (.inr (Nat.le_refl 1))
    hspare).imp fun _ _ _ => trivial

theorem writei_total (h : s.Loaded k i) (hop : s.InOp) (hfree : s.missing i off src.length ≤ s.free)
    (hlog : s.LogRoom (2 * blocksOf off src.length + 4)) :
    Wp (writei k src off) s (fun _ _ => True) fun _ => False := by
  have henough := writei_enough h hop off src (Finset.Subset.refl _) hfree
  exact ((writei_roomy h hop off src hlog).and henough).mono (fun _ _ _ => trivial) fun e he => he.1 he.2

/-- The range does not fit in the inode. -/
def Fs.TooFar (s : Fs) (i off n : Nat) : Prop :=
  (s.bytes i).length < off ∨ 2 ^ 32 ≤ off + n ∨ MAXFILE * BSIZE < off + n

theorem Fs.tooFar_iff {n : Nat} : s.TooFar i off n ↔ ¬ (s.dinode i).Fits off n := by
  have hmax : MAXFILE * BSIZE < 2 ^ 32 := by decide
  unfold Fs.TooFar Dinode.Fits
  rw [Fs.length_bytes]
  omega

theorem writei_tooFar (h : s.Loaded k i) (hfar : s.TooFar i off src.length) (E : Stop → Prop) :
    Wp (writei k src off) s (fun r t => r = -1 ∧ t = s) E := by
  have hno := Fs.tooFar_iff.mp hfar
  unfold Dinode.Fits at hno
  unfold writei
  simp only [wp_bind, wp_inode, h.din]
  refine wp_ite (fun hc => absurd hc h.not_dev) fun _ => wp_ite (fun _ => wp_pure.mpr ⟨rfl, rfl⟩)
    fun hc => wp_ite (fun _ => wp_pure.mpr ⟨rfl, rfl⟩) fun hm => absurd ⟨?_, ?_⟩ hno
  · omega
  · omega

/-- In every state with exact block ownership and no holes, for every file or directory
and all 32-bit offsets and lengths: `readi` returns the bytes of the range that are
below the size, and -1 if the range starts after the size or wraps; `writei` returns
-1, and changes nothing, if the range does not fit, and nothing else makes it return
-1; when the range fits and `writei` returns, it returns the length, the bytes of the
range are replaced, and no other inode changes; and it returns if there are enough
free blocks and the log has room. -/
theorem file_byte_array (hs : s.Tidy) (hk : s.Caches k i) (off : UInt32) :
    (∀ n : UInt32, readi k off.toNat n.toNat s =
      .ok (if (s.bytes i).length < off.toNat ∨ 2 ^ 32 ≤ off.toNat + n.toNat then (-1, [])
        else ((((s.bytes i).drop off.toNat).take n.toNat).length,
          ((s.bytes i).drop off.toNat).take n.toNat), s)) ∧
    ∀ src : List UInt8, src.length < 2 ^ 32 → s.InOp →
      ((∃ t, writei k src off.toNat s = .ok (-1, t)) ↔ s.TooFar i off.toNat src.length) ∧
      (∀ t, writei k src off.toNat s = .ok (-1, t) → t = s) ∧ (s.missing i off.toNat src.length ≤ s.free →
        s.LogRoom (2 * blocksOf off.toNat src.length + 4) → ∃ r t, writei k src off.toNat s = .ok (r, t)) ∧
      ∀ r t, writei k src off.toNat s = .ok (r, t) → ¬ s.TooFar i off.toNat src.length → r = src.length ∧
        t.bytes i = (s.bytes i).take off.toNat ++ src ++ (s.bytes i).drop (off.toNat + src.length) ∧
        (0 < src.length → (t.bytes i).length = max (s.bytes i).length (off.toNat + src.length)) ∧
        (∀ j < s.sb.ninodes, j ≠ i →
          t.dinode j = s.dinode j ∧ ((s.dinode j).type ≠ 0 → t.bytes j = s.bytes j)) ∧ t.Tidy := by
  have h := hs.loaded hk
  refine ⟨fun n => readi_bytes h off.toNat_lt n.toNat_lt, fun src hlen hop => ?_⟩
  have hspec := writei_stored h hop src off.toNat
  refine ⟨⟨fun ⟨t, ht⟩ => ?_, fun hfar => ?_⟩, fun t ht => ?_, fun hfree hlog => ?_,
    fun r t ht hfar => ?_⟩
  · rcases wp_ok hspec ht with ⟨hno, -⟩ | ⟨-, hr, -⟩
    · exact Fs.tooFar_iff.mpr hno
    · omega
  · exact ⟨s, eq_of_wp (writei_tooFar h hfar _)⟩
  · rcases wp_ok hspec ht with ⟨-, -, hts⟩ | ⟨-, hr, -⟩
    · exact hts
    · omega
  · cases hw : writei k src off.toNat s with
    | ok p => exact ⟨p.1, p.2, rfl⟩
    | error e => exact (wp_error (writei_total h hop hfree hlog) hw).elim
  · rcases wp_ok hspec ht with ⟨hno, -⟩ | ⟨hfit, hr, ⟨e, hst⟩, -⟩
    · exact absurd (Fs.tooFar_iff.mpr hno) hfar
    · refine ⟨hr, hst.bytes h.lt hfit.1, fun _ => ?_, fun j hj hne => hst.bytes_other hj hne,
        hst.tidy hs⟩
      rw [Fs.length_bytes, Fs.length_bytes, hst.table i h.lt, upd_same, hst.size]

/-! ## What has been logged -/

/-- The header only grows, and stays within its array. -/
structure Log.Grows (lg lg' : Log) : Prop where
  subset : lg.lh.listed ⊆ lg'.lh.listed
  le : lg.lh.n ≤ LOGSIZE → lg'.lh.n ≤ LOGSIZE

theorem Log.Grows.refl (lg : Log) : lg.Grows lg := ⟨Finset.Subset.refl _, id⟩

theorem Log.Grows.trans {lg lg' lg'' : Log} (h : lg.Grows lg') (h' : lg'.Grows lg'') :
    lg.Grows lg'' := ⟨h.subset.trans h'.subset, fun hn => h'.le (h.le hn)⟩

theorem bput_grows (b : Nat) (v : Block) :
    Wp (bput b v) s (fun _ t => s.log.Grows t.log ∧ logKey b ∈ t.log.lh.listed) fun _ => True := by
  unfold bput logWrite
  simp only [wp_bind, wp_modify, wp_get]
  refine wp_ite (fun _ => wp_panic.mpr trivial) fun hbig => wp_ite (fun _ => wp_panic.mpr trivial)
    fun _ => wp_set.mpr ?_
  rw [Fs.log_setBlk] at hbig ⊢
  have hn : s.log.lh.n < LOGSIZE := by
    unfold Log.tooBig at hbig
    omega
  have hlisted := LogHeader.listed_add (b := b) hn
  refine ⟨⟨?_, fun _ => ?_⟩, ?_⟩
  · rw [hlisted]
    exact Finset.subset_insert _ _
  · exact (LogHeader.n_add_le (LogHeader.scan_lt hn _) (Nat.le_of_lt hn)).2
  · rw [hlisted]
    exact Finset.mem_insert_self _ _

theorem balloc_grows : Wp balloc s (fun _ t => s.log.Grows t.log) fun _ => True := by
  unfold balloc
  rw [wp_bind, wp_get]
  split
  next =>
    refine (bput_grows _ _).seq (fun _ t ht => ?_)
    refine (bput_grows _ _).seq (fun _ u hu => ?_)
    exact wp_pure.mpr (ht.1.trans hu.1)
  next => exact wp_panic.mpr trivial

theorem bmapAddr_grows (p : Nat) : Wp (bmapAddr k p) s (fun _ t => s.log.Grows t.log) fun _ => True := by
  unfold bmapAddr
  simp only [wp_bind, wp_inode]
  refine wp_ite (fun _ => ?_) fun _ => wp_pure.mpr (.refl _)
  refine balloc_grows.seq (fun a t ht => ?_)
  simp only [wp_bind, wp_setDin, wp_pure]
  exact ht

theorem bmapEntry_grows (ind j : Nat) :
    Wp (bmapEntry ind j) s (fun _ t => s.log.Grows t.log) fun _ => True := by
  unfold bmapEntry
  simp only [wp_bind, wp_bread]
  refine wp_ite (fun _ => ?_) fun _ => wp_pure.mpr (.refl _)
  refine balloc_grows.seq (fun a t ht => ?_)
  simp only [wp_bind, wp_bread]
  exact (bput_grows _ _).imp fun _ u hu => wp_pure.mpr (ht.trans hu.1)

theorem bmap_grows (bn : Nat) : Wp (bmap k bn) s (fun _ t => s.log.Grows t.log) fun _ => True := by
  unfold bmap
  refine wp_ite (fun _ => bmapAddr_grows bn) fun _ => wp_ite (fun _ => ?_) fun _ =>
    wp_panic.mpr trivial
  refine (bmapAddr_grows NDIRECT).seq (fun ind t ht => ?_)
  exact (bmapEntry_grows ind _).imp fun _ u hu => ht.trans hu

theorem writePiece_lists (hs : s.Mappable k i I) (hbn : off / BSIZE < MAXFILE) (src : List UInt8) :
    Wp (writePiece k off src) s (fun _ t => s.log.Grows t.log ∧
      logKey ((t.icache k).din.block t.blk (off / BSIZE)) ∈ t.log.lh.listed) fun _ => True := by
  unfold writePiece
  have hspec := bmap_spec hs.geom hs.inOp hs.din hs.lt hs.type hs.owned hbn
  refine ((bmap_grows _).and hspec).bind ?_ fun _ he => he.1
  rintro a t ⟨hg, d', hm, -⟩
  have hs' := hs.map hm
  have ha : (upd I i d' i).block t.blk (off / BSIZE) = a := by rw [upd_same]; exact hm.result
  simp only [wp_bind, wp_bread]
  refine ((bput_grows a _).and (bput_spec hs'.inOp a _)).mono ?_ fun _ he => he.1
  rintro _ u ⟨⟨hg', hl⟩, -, hic, hu⟩
  refine ⟨hg.trans hg', ?_⟩
  have hblock : (u.icache k).din.block u.blk (off / BSIZE) = a := by
    rw [hic, ← hs'.din, hu, ← ha, Dinode.block, hs'.owned.block_store hs'.lt hs'.type _ hs'.lt hs'.type,
      ← Dinode.block, ha]
  rw [hblock]
  exact hl

theorem writeBlocks_lists : ∀ (fuel off : Nat) (src : List UInt8) (s : Fs) (I : Nat → Dinode),
    src.length ≤ fuel → s.Mappable k i I → off + src.length ≤ MAXFILE * BSIZE →
    Wp (writeBlocks k fuel off src) s (fun _ t => s.log.Grows t.log ∧ ∀ o, off ≤ o → o < off + src.length →
        logKey ((t.icache k).din.block t.blk (o / BSIZE)) ∈ t.log.lh.listed) fun _ => True
  | 0, off, src, s, I, hfuel, hs, hmax =>
    wp_pure.mpr ⟨.refl _, fun o h1 h2 => absurd h2 (by omega)⟩
  | fuel + 1, off, src, s, I, hfuel, hs, hmax => by
    by_cases h0 : src.length = 0
    · rw [writeBlocks, if_pos h0]
      exact wp_pure.mpr ⟨.refl _, fun o h1 h2 => absurd h2 (by omega)⟩
    · have hmod : off % BSIZE < BSIZE := Nat.mod_lt _ (by decide)
      obtain ⟨m, hm⟩ : ∃ m, m = min src.length (BSIZE - off % BSIZE) := ⟨_, rfl⟩
      have hlen : (src.take m).length = m := by rw [List.length_take]; omega
      have hdrop : (src.drop m).length = src.length - m := List.length_drop
      have hone := hs.writePiece off (src.take m) (by omega) (by omega) (by omega)
      rw [writeBlocks_succ h0 hm]
      have hbn : off / BSIZE < MAXFILE := by
        refine Nat.div_lt_of_lt_mul ?_
        rw [Nat.mul_comm]
        omega
      refine ((writePiece_lists hs hbn _).and hone).bind ?_ fun _ he => he.1
      rintro _ t ⟨⟨hg, hl⟩, d', hw⟩
      have hs' := hs.write hw
      have hrest := writeBlocks_spec (i := i) fuel (off + m) (src.drop m) t (upd I i d') (by omega)
        hs'.geom hs'.inOp hs'.din hs'.lt hs'.type hs'.owned (by omega)
      refine ((writeBlocks_lists fuel (off + m) (src.drop m) t (upd I i d') (by omega) hs'
        (by omega)).and hrest).mono ?_ fun _ he => he.1
      rintro _ u ⟨⟨hg', hl'⟩, d'', hw'⟩
      refine ⟨hg.trans hg', fun o h1 h2 => ?_⟩
      by_cases ho : o < off + m
      · -- A block of the first piece stays where it is.
        have hdiv : o / BSIZE = off / BSIZE := by
          simp only [BSIZE] at *
          omega
        have hmap := hw.mapped o h1 (by omega)
        have hkeep := hw'.keeps (o / BSIZE) (by rw [upd_same]; exact hmap)
        have hdt : (t.icache k).din = d' := by rw [hw.icache, Fs.withDin, upd_same]
        have hdu : (u.icache k).din = d'' := by rw [hw'.icache, Fs.withDin, upd_same]
        rw [upd_same] at hkeep
        rw [hdu, hkeep, ← hdt, hdiv]
        exact hg'.subset hl
      · exact hl' o (by omega) (by omega)

theorem logKey_inj {a b : Nat} (ha : a < 2 ^ 32) (hb : b < 2 ^ 32) (h : logKey a = logKey b) : a = b := by
  unfold logKey at h
  rwa [UInt32.toNat_ofNat', UInt32.toNat_ofNat', Nat.mod_eq_of_lt ha, Nat.mod_eq_of_lt hb] at h

theorem blocksOf_le (hs : s.Mappable k i I) (off n : Nat)
    (hmap : ∀ o, off ≤ o → o < off + n → (I i).block s.blk (o / BSIZE) ≠ 0)
    (hl : ∀ o, off ≤ o → o < off + n → logKey ((I i).block s.blk (o / BSIZE)) ∈ s.log.lh.listed) :
    blocksOf off n ≤ s.log.lh.n := by
  -- The offset in the range at which data block `off / BSIZE + j` starts.
  have hat : ∀ j < blocksOf off n, ∃ o, off ≤ o ∧ o < off + n ∧ o / BSIZE = off / BSIZE + j := by
    intro j hj
    refine ⟨max off (BSIZE * (off / BSIZE + j)), ?_⟩
    unfold blocksOf at hj
    simp only [BSIZE] at *
    split at hj <;> omega
  have hsub : (Finset.range (blocksOf off n)).image
      (fun j => logKey ((I i).block s.blk (off / BSIZE + j))) ⊆ s.log.lh.listed := by
    intro x hx
    obtain ⟨j, hj, rfl⟩ := Finset.mem_image.mp hx
    obtain ⟨o, h1, h2, ho⟩ := hat j (Finset.mem_range.mp hj)
    rw [← ho]
    exact hl o h1 h2
  have hinj : Set.InjOn (fun j => logKey ((I i).block s.blk (off / BSIZE + j)))
      (Finset.range (blocksOf off n)) := by
    intro a ha b hb he
    obtain ⟨o, h1, h2, ho⟩ := hat a (Finset.mem_range.mp ha)
    obtain ⟨o', h1', h2', ho'⟩ := hat b (Finset.mem_range.mp hb)
    have hlt : ∀ {o}, off ≤ o → o < off + n → (I i).block s.blk (o / BSIZE) < 2 ^ 32 :=
      fun g1 g2 => Nat.lt_trans (hs.owned.inData hs.lt hs.type (hmap _ g1 g2)).2 hs.geom.size_lt
    have hkey := logKey_inj (ho ▸ hlt h1 h2) (ho' ▸ hlt h1' h2') he
    have hpos := (hs.owned.ptr_inj hs.lt hs.type hs.lt hs.type hkey (ho ▸ hmap o h1 h2)).2
    have := dataPos_inj hpos
    omega
  calc blocksOf off n = (Finset.range (blocksOf off n)).card := (Finset.card_range _).symm
    _ = _ := (Finset.card_image_of_injOn hinj).symm
    _ ≤ s.log.lh.listed.card := Finset.card_le_card hsub
    _ ≤ s.log.lh.blocks.length := List.toFinset_card_le _
    _ = s.log.lh.n := LogHeader.length_blocks _

/-- A write over more blocks than the log can hold fails, however many blocks are
free. -/
theorem writei_long (h : s.Loaded k i) (hop : s.InOp) (hn : s.log.lh.n ≤ LOGSIZE) (off : Nat)
    (src : List UInt8) (hfit : (s.dinode i).Fits off src.length)
    (hfree : s.missing i off src.length ≤ s.free) (hlong : LOGSIZE < blocksOf off src.length) :
    writei k src off s = .error (.panic .tooBig) := by
  have hs := h.mappable hop
  have hmax : MAXFILE * BSIZE < 2 ^ 32 := by decide
  have hnever : Wp (writei k src off) s (fun _ _ => False) fun _ => True := by
    unfold writei
    simp only [wp_bind, wp_inode, h.din]
    obtain ⟨h1, h2⟩ := hfit
    have hmod : (off + src.length) % 2 ^ 32 = off + src.length := Nat.mod_eq_of_lt (by omega)
    refine wp_ite (fun hc => absurd hc h.not_dev) fun _ => wp_ite (fun hc => ?_) fun _ =>
      wp_ite (fun hc => ?_) fun _ => ?_
    · rw [hmod] at hc
      omega
    · omega
    rw [wp_bind]
    have hspec := writeBlocks_spec (i := i) src.length off src s s.dinode (Nat.le_refl _) hs.geom
      hs.inOp hs.din hs.lt hs.type hs.owned h2
    refine ((writeBlocks_lists (i := i) src.length off src s s.dinode (Nat.le_refl _) hs h2).and
      hspec).mono ?_ fun _ he => he.1
    rintro _ t ⟨⟨hg, hl⟩, d', hw⟩
    have hs' := hs.write hw
    have hle := blocksOf_le hs' off src.length
      (fun o g1 g2 => by rw [upd_same]; exact hw.mapped o g1 g2)
      (fun o g1 g2 => by rw [hs'.din]; exact hl o g1 g2)
    have := hg.le hn
    omega
  have hstop := writei_enough h hop off src (Finset.Subset.refl _) hfree
  cases hw : writei k src off s with
  | ok p => exact (wp_ok hnever hw).elim
  | error e =>
    have he : Stop.onlyTooBig e := wp_error hstop hw
    exact congrArg Except.error he

end Xv6
