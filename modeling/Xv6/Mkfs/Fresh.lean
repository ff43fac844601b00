import Xv6.Mkfs.Image
import Xv6.Fs.Shared
import Xv6.Fs.Runs
import Mathlib.Order.Interval.Finset.Nat

/-!
# Writing to a fresh image

The image with an empty root and one empty file, as `mkfs` has it after two calls of
`ialloc`.
-/

namespace Xv6.Mkfs

open Table Bytes Hoare Trans

variable {m : Mk}

/-- The inode `i` of the disk is in the first entry of the inode cache, and the
process that runs has locked it and opened a transaction. -/
def openInode (blk : Nat → Block) (i : Nat) : Fs :=
  { boot sb blk with
    log := ⟨sb.logstart, sb.nlog, 1, false, LogHeader.empty⟩
    icache := upd (boot sb blk).icache 0 ⟨ROOTDEV, i, 1, some 0, true, sb.inode blk i⟩ }

theorem inode_blk {i : Nat} (hi : i < NINODES) : sb.inode m.blk i = m.dinode i := by
  unfold Superblock.inode
  rw [m.blk_of_ne (iblock_ne hi)]
  rfl

/-- The inodes in use are empty, and only the file system's own blocks are taken. -/
structure Fresh (m : Mk) : Prop where
  filling : Filling m m.dinode
  file : (m.dinode 2).type = T_FILE
  empty : ∀ i, (m.dinode i).size = 0
  freeblock : m.freeblock = nmeta

theorem exists_fresh : ∃ m, Fresh m := by
  obtain ⟨m₀, -, hf₀, hroot, hd₀, -, hfb₀, hfi₀⟩ :=
    ialloc_spec blank_filling (by decide) (dinode_blank _) (by decide : T_DIR ≠ 0)
  change m₀.freeinode = 2 at hfi₀
  have hz : m₀.dinode m₀.freeinode = Dinode.zero := by
    rw [hfi₀, hd₀ 2 (by decide), dinode_blank]
  obtain ⟨m, -, hf, hfile, hd, -, hfb, -⟩ :=
    ialloc_spec hf₀ (by rw [hfi₀]; decide) hz (by decide : T_FILE ≠ 0)
  rw [hfi₀] at hfile hd
  refine ⟨m, hf, hfile.type_eq, fun i => ?_, by rw [hfb, hfb₀]; rfl⟩
  by_cases h2 : i = 2
  · rw [h2, hfile.fields]
    rfl
  · rw [hd i h2]
    by_cases h1 : i = blank.freeinode
    · rw [h1, hroot.fields]
      rfl
    · rw [hd₀ i h1, dinode_blank]
      rfl

theorem Fresh.tidy (h : Fresh m) (i : Nat) : (openInode m.blk i).Tidy := by
  have hI : ∀ j < sb.ninodes, (openInode m.blk i).dinode j = m.dinode j := fun j hj => inode_blk hj
  refine ⟨sb_geom, h.filling.owned.table_congr hI, fun j hj _ _ => ?_⟩
  have h0 : ((openInode m.blk i).dinode j).size.toNat = 0 := by rw [hI j hj, h.empty]; rfl
  exact ⟨by rw [h0]; exact Nat.zero_le _, fun o ho => absurd ho (by omega)⟩

theorem Fresh.caches (h : Fresh m) : (openInode m.blk 2).Caches 0 2 := by
  refine ⟨show 2 < NINODES by decide, rfl, rfl, .inl ?_⟩
  rw [show (openInode m.blk 2).dinode 2 = m.dinode 2 from inode_blk (by decide)]
  exact h.file

theorem Fresh.missing_le (h : Fresh m) {s : Fs} (hsb : s.sb = sb) (hblk : s.blk = m.blk) (i : Nat)
    {off len : Nat} (hle : off + len ≤ MAXFILE * BSIZE) : s.missing i off len ≤ s.free := by
  have hfree : Finset.Ico nmeta FSSIZE ⊆
      (Finset.range s.sb.size).filter fun b => s.sb.bit s.blk b = false := by
    intro b hb
    obtain ⟨h1, h2⟩ := Finset.mem_Ico.mp hb
    rw [hsb, hblk]
    refine Finset.mem_filter.mpr ⟨Finset.mem_range.mpr h2, ?_⟩
    rw [m.bit_blk (Nat.lt_trans h2 (by decide)) h.filling.le_BPB, h.freeblock]
    exact decide_eq_false (Nat.not_lt.mpr h1)
  calc s.missing i off len ≤ (touched off len).card := Finset.card_filter_le _ _
    _ ≤ (Finset.range NPTR).card := Finset.card_le_card (touched_subset hle)
    _ ≤ (Finset.Ico nmeta FSSIZE).card := by rw [Finset.card_range, Nat.card_Ico]; decide
    _ ≤ s.free := Finset.card_le_card hfree

/-- One byte is written to the empty file. -/
theorem file_byte_array_fresh : ∃ (s t : Fs), s.Tidy ∧ s.Caches 0 2 ∧
    writei 0 [7] 0 s = .ok (1, t) ∧ t.bytes 2 = [7] := by
  obtain ⟨m, h⟩ := exists_fresh
  obtain ⟨hminus, -, htotal, hok⟩ := (file_byte_array (h.tidy 2) h.caches 0).2 [7] (by decide)
    (show (1 : Int) ≤ 1 by decide)
  obtain ⟨r, t, ht⟩ := htotal (h.missing_le rfl rfl 2 (by decide))
    ⟨show 0 + (2 * blocksOf 0 1 + 4) ≤ LOGSIZE by decide, show 0 + (2 * blocksOf 0 1 + 4) < LOGSIZE by decide⟩
  have hlen : ((openInode m.blk 2).bytes 2).length = 0 := by
    rw [Fs.length_bytes, show (openInode m.blk 2).dinode 2 = m.dinode 2 from inode_blk (by decide),
      h.empty]
    rfl
  have hnear : ¬ (openInode m.blk 2).TooFar 2 (0 : UInt32).toNat 1 := by
    unfold Fs.TooFar
    rw [hlen]
    decide
  obtain ⟨hr, hbytes, -⟩ := hok r t ht hnear
  refine ⟨_, t, h.tidy 2, h.caches, ?_, ?_⟩
  · rw [hr] at ht
    exact ht
  · rw [hbytes, List.eq_nil_of_length_eq_zero hlen]
    rfl

/-- Writing 31 blocks to the empty file in a transaction that has logged nothing yet.
The range fits and 941 blocks are free, and `log_write` panics. -/
theorem long_write_panics : ∃ (s : Fs) (src : List UInt8), s.Tidy ∧ s.Caches 0 2 ∧ s.InOp ∧
    s.log.lh.n = 0 ∧ s.log.size = LOGSIZE ∧ ¬ s.TooFar 2 0 src.length ∧
    s.missing 2 0 src.length ≤ s.free ∧ writei 0 src 0 s = .error (.panic .tooBig) := by
  obtain ⟨m, h⟩ := exists_fresh
  have hlen : (List.replicate (31 * BSIZE) (0 : UInt8)).length = 31 * BSIZE := List.length_replicate
  have hfree : (openInode m.blk 2).missing 2 0 (31 * BSIZE) ≤ (openInode m.blk 2).free :=
    h.missing_le rfl rfl 2 (by decide)
  have hfit : ((openInode m.blk 2).dinode 2).Fits 0 (31 * BSIZE) := ⟨Nat.zero_le _, by decide⟩
  have hpanic := writei_long ((h.tidy 2).loaded h.caches) (show (1 : Int) ≤ 1 by decide)
    (Nat.zero_le _) 0 (List.replicate (31 * BSIZE) 0) (by rw [hlen]; exact hfit) (by rw [hlen]; exact hfree) (by rw [hlen]; decide)
  refine ⟨_, _, h.tidy 2, h.caches, show (1 : Int) ≤ 1 by decide, rfl, rfl, ?_, ?_, hpanic⟩
  · rw [hlen]
    exact fun hfar => Fs.tooFar_iff.mp hfar hfit
  · rw [hlen]
    exact hfree

/-! ## Through a descriptor -/

/-- The first file is open for writing on the empty file, and no operation is in
progress. -/
def openFile (blk : Nat → Block) : Fs :=
  { boot sb blk with
    icache := upd (boot sb blk).icache 0 ⟨ROOTDEV, 2, 1, none, true, sb.inode blk 2⟩
    ftable := upd (boot sb blk).ftable 0 ⟨.inode, 1, false, true, 0, 0⟩ }

theorem Fresh.writes (h : Fresh m) : (openFile m.blk).Writes 0 0 2 := by
  have htidy := h.tidy 2
  have hd : (openFile m.blk).dinode 2 = m.dinode 2 := inode_blk (by decide)
  exact ⟨⟨htidy.geom, htidy.owned, htidy.noHoles⟩, rfl, rfl, rfl, Nat.le_refl 1, rfl, rfl,
    show 2 < NINODES by decide, fun _ => rfl, by rw [hd]; exact h.file⟩

theorem Fresh.bytes_nil (h : Fresh m) : (openFile m.blk).bytes 2 = [] := by
  refine List.eq_nil_of_length_eq_zero ?_
  rw [Fs.length_bytes, show (openFile m.blk).dinode 2 = m.dinode 2 from inode_blk (by decide), h.empty]
  rfl

theorem openFile_atRest (blk : Nat → Block) : (openFile blk).AtRest :=
  ⟨⟨rfl, fun _ => ⟨rfl, rfl⟩, nofun⟩, Nat.le_refl LOGSIZE⟩

/-- Two thousand bytes are written to the empty file, in two pieces. -/
theorem filewrite_as_one_fresh : ∃ (s t : Fs) (src : List UInt8), s.Writes 0 0 2 ∧
    src.length = 2000 ∧ filewrite 0 src s = .ok (2000, t) ∧ t.bytes 2 = src ∧ (t.ftable 0).off = 2000 := by
  obtain ⟨m, h⟩ := exists_fresh
  obtain ⟨src, hlen⟩ : ∃ src : List UInt8, src.length = 2000 := ⟨.replicate 2000 7, List.length_replicate⟩
  have hoff : ((openFile m.blk).ftable 0).off = 0 := rfl
  obtain ⟨r, t, n, hrun, hall, -, hbytes, hftable, -⟩ := filewrite_as_one h.writes
    (openFile_atRest _) (Nat.zero_le _) src (h.missing_le rfl rfl 2 (by rw [hlen, hoff]; decide))
  obtain ⟨hr, hn⟩ := hall (by rw [hlen, hoff]; decide)
  rw [hn, List.take_length] at hbytes hftable
  rw [hr, hlen] at hrun
  refine ⟨_, t, src, h.writes, hlen, hrun, ?_, ?_⟩
  · rw [hbytes, h.bytes_nil, List.take_nil, List.drop_nil, List.nil_append, List.append_nil]
  · rw [hftable, upd_same]
    exact (Nat.zero_add _).trans hlen

/-- A process writes one byte through the descriptor. -/
theorem shared_descriptor_fresh : ∃ (s : Fs) (y : Shared.Sys), s.Writes 0 0 2 ∧
    run (Shared.step 0) (Shared.start s) [.call 0 [7], .write 0, .ret 0] = some y ∧ y.fs.bytes 2 = [7] := by
  obtain ⟨m, h⟩ := exists_fresh
  obtain ⟨s, hs⟩ : ∃ s, s = openFile m.blk := ⟨_, rfl⟩
  have hw : s.Writes 0 0 2 := hs ▸ h.writes
  have hrest : s.AtRest := hs ▸ openFile_atRest _
  have hoff : (s.ftable 0).off = 0 := by rw [hs]; rfl
  have hnil : s.bytes 2 = [] := by rw [hs]; exact h.bytes_nil
  have hfree : s.missing 2 (s.ftable 0).off 1 ≤ s.free := by
    rw [hoff]
    exact h.missing_le (by rw [hs]; rfl) (by rw [hs]; rfl) 2 (by decide)
  have hbegin : beginOp s = .ok ((), s.begun) :=
    eq_of_wp ((beginOp_begun hrest _).imp fun _ _ ht => ⟨rfl, ht⟩)
  -- The locked section and `end_op` return.
  obtain ⟨t, u, hlock, hend, hlog⟩ : ∃ t u, lockedWrite 0 [7] { s.begun with cur := 0 } = .ok (1, t) ∧
      endOp t = .ok ((), u) ∧ (0 : Int) ≤ s.log.outstanding := by
    have hcur : ({ s.begun with cur := 0 } : Fs) = s.begun := by rw [hs]; rfl
    rw [hcur]
    have hbegun : s.begun.Writes 0 0 2 := hw.withLog _
    have hop : s.begun.InOp := show (1 : Int) ≤ 1 by decide
    have hroom : s.begun.LogRoom (2 * blocksOf (s.ftable 0).off 1 + 4) := by
      rw [hs]
      exact ⟨show 0 + (2 * blocksOf 0 1 + 4) ≤ LOGSIZE by decide,
        show 0 + (2 * blocksOf 0 1 + 4) < LOGSIZE by decide⟩
    have hen : Enough (touched (s.ftable 0).off 1) (s.begun.dinode 2) s.begun :=
      Enough.congr (s := s) (d := s.dinode 2) hfree (fun _ => rfl) (Fs.free_congr rfl fun _ _ => rfl)
    have htotal := lockedWrite_total hbegun hop [7] hroom (Finset.Subset.refl _) hen
    cases hrun : lockedWrite 0 [7] s.begun with
    | error e => exact (wp_error htotal hrun).elim
    | ok p =>
      obtain ⟨r, t⟩ := p
      rcases wp_ok (lockedWrite_spec hbegun hop [7]) hrun with ⟨hno, -⟩ | ⟨-, hr, -, hlog⟩
      · refine absurd ⟨?_, ?_⟩ hno
        · change (s.ftable 0).off ≤ _
          rw [hoff]
          exact Nat.zero_le _
        · change (s.ftable 0).off + 1 ≤ _
          rw [hoff]
          decide
      · have hended := endOp_rest hlog hrest fun _ => False
        cases hend : endOp t with
        | error e => exact (wp_error hended hend).elim
        | ok q => exact ⟨t, q.2, by rw [hr]; rfl, hend, by rw [(hrest.idle.idle rfl).1]⟩
  have hy : run (Shared.step 0) (Shared.start s) [.call 0 [7], .write 0, .ret 0] =
      some ⟨u, upd (upd (upd (fun _ => .idle) 0 (.begun [7])) 0 (.wrote 1)) 0 .idle, [(0, [7])]⟩ := by
    have hmax : 1 ≤ filewriteMax := by decide
    dsimp only at hlock
    simp [run, Shared.step, Shared.start, Shared.Sys.write, hmax, hbegin, hlock, hend]
  have hdata := Shared.shared_descriptor hw (by rw [hoff, hnil]; rfl) hlog hy (by rw [hnil]; decide)
  refine ⟨s, _, hw, hy, ?_⟩
  rw [hdata.1, hnil]
  rfl

end Xv6.Mkfs
