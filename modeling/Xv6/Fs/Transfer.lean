import Xv6.Fs.InodeSpec

/-!
# Reading and writing through an inode

What `readi` and `writei` do to the view. Reading an inode that is not a device
changes nothing at all; writing one splices the bytes into the node.
-/

namespace Xv6

open Hoare Table Bytes

variable {g : View} {s : Fs} {k : Fin NINODE} {i : Nat}

/-! ## Devices -/

theorem relock_spec (hk : k ∈ g.locks) (hat : g.At k i) (hty : (g.node i).type ≠ 0)
    (h : Inv { g with locks := g.locks.erase k } s) (E : Stop → Prop) :
    Wp (ilock k) s (fun _ t => Inv g t) E := by
  refine (ilock_spec h hat (Finset.notMem_erase _ _)).mono ?_ fun e he => absurd he.2 hty
  rintro _ t ⟨ht, -⟩
  change Inv { g with locks := insert k (g.locks.erase k) } t at ht
  rwa [Finset.insert_erase hk] at ht

theorem Inv.withInput (h : Inv g s) (input : Nat → Option (List UInt8)) : Inv g { s with input := input } :=
  ⟨h.sb, h.geom, h.cur, h.user, h.disk, h.cache, h.log⟩

section

variable (h : Inv g s) (hk : k ∈ g.locks) (hat : g.At k i)

include h hk hat

theorem consoleread_spec (n : Nat)
    (E : Stop → Prop) : Wp (consoleread k n) s (fun _ t => Inv g t) E := by
  have hty : (g.node i).type ≠ 0 := h.inum_eq hat ▸ h.locked_type hk
  unfold consoleread
  refine (iunlock_spec h hk E).seq ?_
  rintro _ t ⟨ht, -⟩
  simp only [wp_bind, wp_get, wp_modify]
  refine (relock_spec hk hat hty (ht.withInput _) E).imp fun _ u hu => ?_
  split <;> exact wp_pure.mpr hu

theorem consolewrite_spec (n : Nat)
    (E : Stop → Prop) : Wp (consolewrite k n) s (fun r t => r = n ∧ Inv g t) E := by
  have hty : (g.node i).type ≠ 0 := h.inum_eq hat ▸ h.locked_type hk
  unfold consolewrite
  refine (iunlock_spec h hk E).seq ?_
  rintro _ t ⟨ht, -⟩
  exact (relock_spec hk hat hty ht E).seq (fun _ u hu => wp_pure.mpr ⟨rfl, hu⟩)

/-! ## Reading -/

/-- What `readi` returns for an inode that is not a device. -/
def Node.read (n : Node) (off len : Nat) : Int × List UInt8 :=
  if n.size < off ∨ (off + len) % 2 ^ 32 < off then (-1, [])
  else
    let len := if n.size < off + len then n.size - off else len
    ((len : Int), (List.range len).map fun j => n.data (off + j))

/-- Reading an inode that is not a device changes nothing and returns the
content. -/
theorem readi_spec
    (hdev : (g.node i).type ≠ T_DEV) (off n : Nat) (E : Stop → Prop) :
    Wp (readi k off n) s (fun r t => t = s ∧ r = (g.node i).read off n) E := by
  have hinum := h.inum_eq hat
  have hlt := (h.at_lt hat).2
  have hty : (g.node i).type ≠ 0 := hinum ▸ h.locked_type hk
  have hd : (s.icache k).din = s.dinode i := hinum ▸ h.din_eq hk
  have hnode := h.disk.node_eq i hlt
  have hholes := h.disk.noHoles i hlt hty hdev
  have hsize : (s.dinode i).size.toNat = (g.node i).size := by rw [hnode]; rfl
  have hdtype : (s.dinode i).type = (g.node i).type := by rw [hnode]; rfl
  unfold readi
  simp only [wp_bind, wp_inode, hd, hsize, hdtype]
  refine wp_ite (fun hc => absurd hc hdev) fun _ => wp_ite (fun hc => ?_) fun hc => ?_
  · rw [wp_pure, Node.read, if_pos hc]
    exact ⟨rfl, rfl⟩
  · obtain ⟨m, hm⟩ : ∃ m, m = if (g.node i).size < off + n then (g.node i).size - off else n :=
      ⟨_, rfl⟩
    have hle : off + m ≤ (g.node i).size := by
      rw [hm]
      split <;> omega
    rw [Node.read, if_neg hc, ← hm]
    refine (readBlocks_spec E m off m (Nat.le_refl _) fun o h1 h2 => ?_).seq ?_
    · rw [hd]
      exact hholes.2 o (by rw [hsize]; omega)
    · rintro bs t ⟨rfl, rfl⟩
      rw [wp_pure]
      refine ⟨rfl, Prod.ext rfl (List.map_congr_left fun j hj => ?_)⟩
      have hj' := List.mem_range.mp hj
      rw [hd, hnode]
      exact (if_pos ⟨hdtype ▸ hty, hdtype ▸ hdev, by rw [hsize]; omega⟩).symm

theorem readi_inv (off n : Nat)
    (E : Stop → Prop) : Wp (readi k off n) s (fun _ t => Inv g t) E := by
  by_cases hdev : (g.node i).type = T_DEV
  · have hd : (s.icache k).din.type = T_DEV := by
      rw [h.din_type hk, h.inum_eq hat]
      exact hdev
    unfold readi
    simp only [wp_bind, wp_inode]
    refine wp_ite (fun _ => wp_ite (fun _ => wp_pure.mpr h) fun _ => ?_) fun hc => absurd hd hc
    exact consoleread_spec h hk hat n E
  · refine (readi_spec h hk hat hdev off n E).imp ?_
    rintro _ t ⟨rfl, -⟩
    exact h

end

/-! ## Writing -/

/-- The node after `writei` of `src` at `off`. -/
def Node.write (n : Node) (off : Nat) (src : List UInt8) : Node :=
  { n with size := max n.size (off + src.length), data := splice n.data off src }

/-- The bytes fit: no gap before them, and no overflow after. -/
def Node.Fits (n : Node) (off len : Nat) : Prop := off ≤ n.size ∧ off + len ≤ MAXFILE * BSIZE

variable {e : Dinode} {off : Nat} {src : List UInt8}

theorem absNode_write {blk blk' : Nat → Block} {d : Dinode}
    (hf : e = { d with addrs := e.addrs, size := e.size })
    (hs : e.size.toNat = max d.size.toNat (off + src.length)) (ho : off ≤ d.size.toNat)
    (h0 : d.type ≠ 0) (h1 : d.type ≠ T_DEV)
    (hc : ∀ o, e.contents blk' o = splice (d.contents blk) off src o) :
    absNode blk' e = (absNode blk d).write off src := by
  have ht : e.type = d.type := by rw [hf]
  refine Node.ext ht (by rw [hf]; rfl) (by rw [hf]; rfl) (by rw [hf]; rfl) hs (funext fun o => ?_)
  unfold Node.write absNode splice
  simp only [ht, hs, hc, splice, h0, h1, ne_eq, not_false_eq_true, true_and]
  by_cases hr : off ≤ o ∧ o < off + src.length
  · rw [if_pos (by omega), if_pos hr, if_pos hr]
  · rw [if_neg hr, if_neg hr]
    by_cases hd : o < d.size.toNat
    · rw [if_pos (by omega), if_pos hd]
    · rw [if_neg (by omega), if_neg hd]

/-- The cache entry `k` holds the inode `i`, a file or a directory without holes, and
the inodes own their blocks exactly. -/
structure Fs.Loaded (s : Fs) (k : Fin NINODE) (i : Nat) : Prop where
  geom : s.sb.Geom
  owned : Owned s.sb s.blk s.dinode ∅
  lt : i < s.sb.ninodes
  inum : (s.icache k).inum = i
  din : (s.icache k).din = s.dinode i
  type : (s.dinode i).type ≠ 0
  not_dev : (s.dinode i).type ≠ T_DEV
  noHoles : NoHoles s.blk (s.dinode i)

/-- The bytes fit in the inode: no gap before them, and no overflow after. -/
def Dinode.Fits (d : Dinode) (off len : Nat) : Prop :=
  off ≤ d.size.toNat ∧ off + len ≤ MAXFILE * BSIZE

/-- The state `u` stores `src` at `off` in the inode `i`, which becomes `e`. -/
structure Stored (s : Fs) (k : Fin NINODE) (i off : Nat) (src : List UInt8) (u : Fs) (e : Dinode) :
    Prop where
  frame : Frame s u
  icache : u.icache = s.withDin k e
  owned : Owned s.sb u.blk (upd s.dinode i e) ∅
  table : ∀ j < s.sb.ninodes, u.dinode j = upd s.dinode i e j
  fields : e = { s.dinode i with addrs := e.addrs, size := e.size }
  size : e.size.toNat = max (s.dinode i).size.toNat (off + src.length)
  contents : ∀ o, e.contents u.blk o = splice ((s.dinode i).contents s.blk) off src o
  noHoles : NoHoles u.blk e
  other_ptr : ∀ j < s.sb.ninodes, j ≠ i → (s.dinode j).type ≠ 0 →
    ∀ p, (s.dinode j).ptr u.blk p = (s.dinode j).ptr s.blk p
  other_contents : ∀ j < s.sb.ninodes, j ≠ i → (s.dinode j).type ≠ 0 →
    ∀ o, (s.dinode j).contents u.blk o = (s.dinode j).contents s.blk o

/-- The loop of `writei` left the state `t`, and `u` has its blocks with the new
size. -/
theorem WritePost.stored (h : s.Loaded k i)
    (hfit : (s.dinode i).Fits off src.length) {t u : Fs} {d' : Dinode}
    (hw : WritePost s k i s.dinode off src t d') (hf : Frame t u) (hic : u.icache = s.withDin k e)
    (he : e = { d' with size := e.size })
    (hsz : e.size.toNat = max (s.dinode i).size.toNat (off + src.length))
    (hb : ∀ c, s.sb.InData c → u.blk c = t.blk c) (ho : Owned s.sb u.blk (upd s.dinode i e) ∅)
    (hI : ∀ j < s.sb.ninodes, u.dinode j = upd s.dinode i e j) : Stored s k i off src u e := by
  have hc := hw.changed
  have hsame : ∀ j < s.sb.ninodes, (upd s.dinode i d' j).type ≠ 0 →
      (∀ p, (upd s.dinode i d' j).ptr u.blk p = (upd s.dinode i d' j).ptr t.blk p) ∧
        ∀ o, (upd s.dinode i d' j).contents u.blk o = (upd s.dinode i d' j).contents t.blk o :=
    fun j hj ht => hc.owned.same_of_data hb hj ht
  have hself := hsame i h.lt (by rw [upd_same, hc.fields]; exact h.type)
  rw [upd_same] at hself
  have hother : ∀ j < s.sb.ninodes, j ≠ i → (s.dinode j).type ≠ 0 →
      (∀ p, (s.dinode j).ptr u.blk p = (s.dinode j).ptr t.blk p) ∧
        ∀ o, (s.dinode j).contents u.blk o = (s.dinode j).contents t.blk o := by
    intro j hj hne ht
    have := hsame j hj (by rwa [upd_ne _ _ hne])
    rwa [upd_ne _ _ hne] at this
  have haddrs : e.addrs = d'.addrs := by rw [he]
  have hptr : ∀ p, e.ptr u.blk p = d'.ptr t.blk p := fun p => by
    rw [Dinode.ptr_of_addrs haddrs, hself.1]
  refine ⟨hw.frame.trans hf, hic, ho, hI, by rw [he, hc.fields], hsz, fun o => ?_,
    ⟨?_, fun o ho' => ?_⟩, fun j hj hne ht p => ?_, fun j hj hne ht o => ?_⟩
  · rw [Dinode.contents_of_addrs haddrs, hself.2, hc.contents]
  · rw [hsz]
    exact Nat.max_le.mpr ⟨h.noHoles.1, hfit.2⟩
  · rw [hsz] at ho'
    rw [Dinode.block, hptr]
    by_cases hr : off ≤ o ∧ o < off + src.length
    · exact hw.mapped o hr.1 hr.2
    · have hm := h.noHoles.2 o (by have := hfit.1; omega)
      have hk := hw.keeps _ hm
      rw [Dinode.block] at hk
      rw [hk]
      exact hm
  · rw [(hother j hj hne ht).1, hc.other_ptr j hj hne ht]
  · rw [(hother j hj hne ht).2, hc.other_contents j hj hne ht]

/-- Writing an inode that is not a device. The blocks of an inode change only if
its size does. -/
theorem writei_stored (h : s.Loaded k i) (hop : s.InOp) (src : List UInt8) (off : Nat) :
    Wp (writei k src off) s (fun r t =>
      (¬ (s.dinode i).Fits off src.length ∧ r = -1 ∧ t = s) ∨
      ((s.dinode i).Fits off src.length ∧ r = src.length ∧ (∃ e, Stored s k i off src t e) ∧
        (off + src.length ≤ (s.dinode i).size.toNat → t.icache = s.icache))) Stop.scarce := by
  have hmax : MAXFILE * BSIZE < 2 ^ 32 := by decide
  unfold writei
  simp only [wp_bind, wp_inode, h.din]
  refine wp_ite (fun hc => absurd hc h.not_dev) fun _ => wp_ite (fun hc => ?_) fun hc =>
    wp_ite (fun hm => ?_) fun hm => ?_
  · refine wp_pure.mpr (.inl ⟨fun hfit => ?_, rfl, rfl⟩)
    obtain ⟨h1, h2⟩ := hfit
    rcases hc with hc | hc
    · omega
    · rw [Nat.mod_eq_of_lt (by omega)] at hc
      omega
  · exact wp_pure.mpr (.inl ⟨fun hfit => absurd hfit.2 (by omega), rfl, rfl⟩)
  have hfit : (s.dinode i).Fits off src.length := ⟨by omega, by omega⟩
  rw [wp_bind]
  refine (writeBlocks_spec (i := i) src.length off src s s.dinode (Nat.le_refl _) h.geom hop
    h.din.symm h.lt h.type h.owned (by omega)).imp ?_
  rintro _ t ⟨d', hw⟩
  have hdin : (t.icache k).din = d' := by rw [hw.icache, Fs.withDin, upd_same]
  have hdsize : d'.size = (s.dinode i).size := by rw [hw.changed.fields]
  have htable : ∀ j < s.sb.ninodes, t.dinode j = s.dinode j := fun j hj => by
    unfold Fs.dinode
    rw [hw.frame.sb, hw.changed.inodes j hj]
  simp only [wp_bind, wp_inode, hdin, hdsize]
  refine wp_ite (fun hgrow => ?_) fun hsame => ?_
  · -- The file grows, and `iupdate` stores the new blocks with the new size.
    simp only [wp_bind, wp_setDin]
    refine (iupdate_spec (s := t.setInode k _) (hw.frame.inOp hop)).imp ?_
    rintro _ u ⟨hf, hic, hb⟩
    simp only [Fs.icache_setInode, upd_same, Fs.blk_setInode, Fs.sb_setInode, hw.icache, Fs.withDin,
      upd_upd, h.inum, hw.frame.sb] at hb hic
    have hI := dinode_of_blk_eq (s := t) (t := u) (i := i) hf.sb (by rw [hb, hw.frame.sb])
    refine wp_pure.mpr (.inr ⟨hfit, rfl, ?_, fun hle => absurd hle (by omega)⟩)
    refine ⟨{ d' with size := UInt32.ofNat (off + src.length) },
      hw.stored h hfit ((frame_setInode t k _).trans hf) ?_ rfl ?_ (fun c hcd => ?_) ?_
      fun j hj => ?_⟩
    · rw [hic, Fs.withDin, ← h.inum]
    · rw [UInt32.toNat_ofNat_of_lt' (by simp only [UInt32.size]; omega)]
      omega
    · rw [hb]
      exact upd_ne _ _ fun he => h.geom.iblock_not_inData h.lt hcd he.symm
    · rw [hb]
      refine Owned.upd_inode ?_ h.geom h.lt _
      exact hw.changed.owned.set_fields rfl rfl
    · rw [hI]
      by_cases he : j = i
      · rw [he, upd_same, upd_same]
      · rw [upd_ne _ _ he, upd_ne _ _ he, htable j hj]
  · -- The bytes stay below the size, where every block is mapped already.
    have hle : src.length = 0 ∨ off + src.length ≤ (s.dinode i).size.toNat := by omega
    have hd' : d' = s.dinode i := hw.same fun o h1 h2 => h.noHoles.2 o (by omega)
    have hic : t.icache = s.icache := by rw [hw.icache, hd', ← h.din, withDin_self]
    refine wp_pure.mpr (wp_pure.mpr (.inr ⟨hfit, rfl, ⟨d', ?_⟩, fun _ => hic⟩))
    refine hw.stored h hfit (Frame.refl t) hw.icache rfl ?_ (fun _ _ => rfl) hw.changed.owned
      fun j hj => ?_
    · rw [hdsize]
      have := hfit.1
      omega
    · rw [htable j hj, hd', upd_eq_self]

theorem Inv.loaded (h : Inv g s) (hk : k ∈ g.locks) (hat : g.At k i)
    (hdev : (g.node i).type ≠ T_DEV) : s.Loaded k i := by
  have hinum := h.inum_eq hat
  have hlt := (h.at_lt hat).2
  have hty : (g.node i).type ≠ 0 := hinum ▸ h.locked_type hk
  have hdtype : (s.dinode i).type = (g.node i).type := by rw [h.disk.node_eq i hlt]; rfl
  exact ⟨h.geom', by rw [h.sb]; exact h.disk.owned, by rw [h.sb]; exact hlt, hinum,
    hinum ▸ h.din_eq hk, hdtype ▸ hty, hdtype ▸ hdev, h.disk.noHoles i hlt hty hdev⟩

theorem Inv.stored (h : Inv g s) (hop : g.op = true) (hk : k ∈ g.locks) (hat : g.At k i)
    (hdev : (g.node i).type ≠ T_DEV) (hfit : (s.dinode i).Fits off src.length)
    (hent : (g.node i).type = T_DIR → ((g.node i).write off src).EntriesIn g.sb.ninodes)
    {u : Fs} (hs : Stored s k i off src u e) :
    Inv { g with node := upd g.node i ((g.node i).write off src) } u := by
  have hl := h.loaded hk hat hdev
  have hlt := (h.at_lt hat).2
  have hnode := h.disk.node_eq i hlt
  have habs : absNode u.blk e = (g.node i).write off src := by
    rw [hnode]
    exact absNode_write hs.fields hs.size hfit.1 hl.type hl.not_dev hs.contents
  have htype : e.type = (g.node i).type := by rw [hs.fields, hnode]; rfl
  have howned := hs.owned
  have htable := hs.table
  have hptr := hs.other_ptr
  have hcont := hs.other_contents
  rw [h.sb] at howned htable hptr hcont
  have hdisk := h.disk.replace hlt htable howned hptr hcont (fun _ _ => hs.noHoles) fun h0 => by
    rw [habs]
    exact hent (htype.symm.trans h0)
  rw [habs] at hdisk
  refine h.of_frame hop hs.frame hdisk ?_
  rw [hs.icache]
  exact h.cache.store hk hl.inum rfl htable

theorem Inv.fits_iff (h : Inv g s) (hi : i < g.sb.ninodes) (off len : Nat) :
    (s.dinode i).Fits off len ↔ (g.node i).Fits off len := by
  rw [h.disk.node_eq i hi]
  exact Iff.rfl

theorem writei_spec (h : Inv g s) (hop : g.op = true) (hk : k ∈ g.locks) (hat : g.At k i)
    (hdev : (g.node i).type ≠ T_DEV) (src : List UInt8) (off : Nat)
    (hent : (g.node i).type = T_DIR → (g.node i).Fits off src.length →
      ((g.node i).write off src).EntriesIn g.sb.ninodes) : Wp (writei k src off) s (fun r t =>
      (¬ (g.node i).Fits off src.length ∧ r = -1 ∧ t = s) ∨
      ((g.node i).Fits off src.length ∧ r = src.length ∧
        Inv { g with node := upd g.node i ((g.node i).write off src) } t ∧
        (off + src.length ≤ (g.node i).size → t.icache = s.icache))) Stop.scarce := by
  have hfits := h.fits_iff (h.at_lt hat).2 off src.length
  have hsize : (s.dinode i).size.toNat = (g.node i).size := by
    rw [h.disk.node_eq i (h.at_lt hat).2]
    rfl
  refine (writei_stored (h.loaded hk hat hdev) (h.inOp hop) src off).imp ?_
  rintro r t (⟨hno, hr, hts⟩ | ⟨hfit, hr, ⟨e, hs⟩, hsame⟩)
  · exact .inl ⟨fun hc => hno (hfits.mpr hc), hr, hts⟩
  · refine .inr ⟨hfits.mp hfit, hr, ?_, fun hle => hsame (by rw [hsize]; exact hle)⟩
    exact h.stored hop hk hat hdev hfit (fun h0 => hent h0 (hfits.mp hfit)) hs

end Xv6
