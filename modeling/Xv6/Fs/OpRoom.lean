import Xv6.Fs.Calm
import Xv6.Fs.DirMap

/-!
# What the steps of an operation log

The account of `Xv6/Fs/LogRoom` for freeing blocks, giving up inodes, adding
entries and making inodes. The free map is one block, which every account knows,
so freeing any number of blocks costs nothing. An inode costs its block once, and
an entry of a directory the block it is in and the indirect block.
-/

namespace Xv6

open Hoare Table

variable {N c : Nat} {B : Finset Nat} {g : View} {s t : Fs} {k : Fin NINODE} {i : Nat}

/-! ## Freeing -/

theorem Log.Room.insert {lg : Log} (h : lg.Room N B (c + 1)) (x : Nat) :
    lg.Room N (Insert.insert x B) c := by
  refine ⟨h.le_logsize, h.lt_size, ?_⟩
  have hsub : Insert.insert x B \ lg.lh.listed ⊆ Insert.insert x (B \ lg.lh.listed) := by
    intro y hy
    rw [Finset.mem_sdiff, Finset.mem_insert] at hy
    rw [Finset.mem_insert, Finset.mem_sdiff]
    exact hy.1.imp id fun hb => ⟨hb, hy.2⟩
  have hcard := (Finset.card_le_card hsub).trans (Finset.card_insert_le x _)
  have := h.lt
  omega

theorem Calm.also {α : Type} {m : Kern α} {Q : α → Fs → Prop} {E : Stop → Prop} (h : Calm m s)
    (h' : Wp m s Q E) : Wp m s (fun a t => t.log = s.log ∧ Q a t) Stop.notTooBig :=
  (h.and h').mono (fun _ _ ht => ⟨ht.1.log, ht.2⟩) fun _ he => he.1

theorem MapCost.mem {sb : Superblock} (h : MapCost B 0 sb) {b : Nat} (hb : b < sb.size) :
    logKey (sb.bblock b) ∈ B := (h b hb).resolve_right (Nat.not_succ_le_zero 0)

theorem bfree_room {b : Nat} (hB : MapCost B 0 s.sb) (hb : b < s.sb.size) (h : s.log.Room N B c) :
    Wp (bfree b) s (fun _ t => t.log.Room N B c ∧ t.sb = s.sb ∧ t.icache = s.icache ∧
      ∀ a, a ≠ s.sb.bblock b → t.blk a = s.blk a) Stop.notTooBig := by
  unfold bfree bput logWrite
  simp only [wp_bind, wp_get]
  refine wp_ite (fun _ => ?_) fun _ => wp_panic.mpr (by intro h; cases h)
  simp only [wp_bind, wp_modify, wp_get]
  refine wp_ite (fun hbig => absurd hbig h.not_tooBig) fun _ =>
    wp_ite (fun _ => wp_panic.mpr (by intro h; cases h)) fun _ => wp_set.mpr ?_
  exact ⟨h.write_mem (.inl (hB.mem hb)), rfl, rfl, fun a ha => upd_ne _ _ ha⟩

theorem itruncDirect_room : ∀ (n p : Nat) (s : Fs), n + p ≤ NDIRECT → s.sb.Geom → MapCost B 0 s.sb →
    (∀ q ≤ NDIRECT, (s.icache k).din.addr q ≠ 0 → (s.icache k).din.addr q < s.sb.size) →
    s.log.Room N B c → Wp (itruncDirect k n p) s (fun _ t => t.log.Room N B c ∧ t.sb = s.sb ∧
      (t.icache k).inum = (s.icache k).inum ∧
      (t.icache k).din.addr NDIRECT = (s.icache k).din.addr NDIRECT ∧
      ∀ a, s.sb.InData a → t.blk a = s.blk a) Stop.notTooBig
  | 0, p, s, _, _, _, _, h => wp_pure.mpr ⟨h, rfl, rfl, rfl, fun _ _ => rfl⟩
  | n + 1, p, s, hp, hg, hB, haddr, h => by
    unfold itruncDirect
    simp only [wp_bind, wp_inode]
    refine wp_ite (fun h0 => ?_) fun _ =>
      wp_pure.mpr (itruncDirect_room n (p + 1) s (by omega) hg hB haddr h)
    rw [wp_bind]
    refine (bfree_room hB (haddr p (by omega) h0) h).imp ?_
    rintro _ t ⟨hr, hsb, hic, hblk⟩
    rw [wp_setDin]
    refine (itruncDirect_room n (p + 1) (t.setInode k _) (by omega) (hsb ▸ hg) (hsb ▸ hB)
      (fun q hle => ?_) hr).imp ?_
    · rw [Fs.icache_setInode, upd_same, hic, Fs.sb_setInode, hsb]
      by_cases hq : q = p
      · rw [hq, Dinode.addr_setAddr_same _ (by omega) (by decide)]
        exact fun hc => absurd rfl hc
      · rw [Dinode.addr_setAddr_ne _ _ hq]
        exact haddr q hle
    · rintro _ u ⟨h1, h2, h3, h4, h5⟩
      rw [Fs.icache_setInode, upd_same, hic] at h3 h4
      refine ⟨h1, h2.trans hsb, h3, h4.trans (Dinode.addr_setAddr_ne _ _ (by omega)), fun a ha => ?_⟩
      refine (h5 a (by rw [Fs.sb_setInode, hsb]; exact ha)).trans (hblk a ?_)
      exact (hg.bblock_not_inData (haddr p (by omega) h0) ha).symm

theorem itruncIndirect_room (a : Block) : ∀ (n j : Nat) (s : Fs), n + j ≤ NINDIRECT → MapCost B 0 s.sb →
    (∀ j < NINDIRECT, (a.uint j).toNat ≠ 0 → (a.uint j).toNat < s.sb.size) → s.log.Room N B c →
    Wp (itruncIndirect a n j) s (fun _ t => t.log.Room N B c ∧ t.sb = s.sb ∧ t.icache = s.icache)
      Stop.notTooBig
  | 0, j, s, _, _, _, h => wp_pure.mpr ⟨h, rfl, rfl⟩
  | n + 1, j, s, hj, hB, haddr, h => by
    unfold itruncIndirect
    rw [wp_bind]
    refine wp_ite (fun h0 => ?_) fun _ =>
      wp_pure.mpr (itruncIndirect_room a n (j + 1) s (by omega) hB haddr h)
    refine (bfree_room hB (haddr j (by omega) h0) h).imp ?_
    rintro _ t ⟨hr, hsb, hic, -⟩
    refine (itruncIndirect_room a n (j + 1) t (by omega) (hsb ▸ hB) (hsb ▸ haddr) hr).imp ?_
    rintro _ u ⟨h1, h2, h3⟩
    exact ⟨h1, h2.trans hsb, h3.trans hic⟩

/-- The blocks of the inode in `k` are blocks of the disk. -/
structure Fs.InRange (s : Fs) (k : Fin NINODE) : Prop where
  addr : ∀ q ≤ NDIRECT, (s.icache k).din.addr q ≠ 0 → (s.icache k).din.addr q < s.sb.size
  ind : (s.icache k).din.addr NDIRECT ≠ 0 → s.sb.InData ((s.icache k).din.addr NDIRECT)
  entry : (s.icache k).din.addr NDIRECT ≠ 0 → ∀ j < NINDIRECT,
    ((s.blk ((s.icache k).din.addr NDIRECT)).uint j).toNat ≠ 0 →
      ((s.blk ((s.icache k).din.addr NDIRECT)).uint j).toNat < s.sb.size

theorem itrunc_room (hg : s.sb.Geom) (hB : MapCost B 0 s.sb) (hr : s.InRange k)
    (hi : logKey (s.sb.iblock (s.icache k).inum) ∈ B) (h : s.log.Room N B c) :
    Wp (itrunc k) s (fun _ t => t.log.Room N B c ∧ t.sb = s.sb ∧
      (t.icache k).inum = (s.icache k).inum) Stop.notTooBig := by
  -- The end of the function, after the blocks are free.
  have hend : ∀ t : Fs, t.log.Room N B c → t.sb = s.sb → (t.icache k).inum = (s.icache k).inum →
      Wp (do setDin k fun d => { d with size := 0 }; iupdate k) t (fun _ t => t.log.Room N B c ∧
        t.sb = s.sb ∧ (t.icache k).inum = (s.icache k).inum) Stop.notTooBig := by
    intro t ht hsb hinum
    rw [wp_bind, wp_setDin]
    have hu : (((t.setInode k fun ip => { ip with din := { ip.din with size := 0 } }).icache k).inum) =
        (s.icache k).inum := by
      rw [Fs.icache_setInode, upd_same]
      exact hinum
    unfold iupdate bput logWrite
    simp only [wp_bind, wp_get, wp_modify]
    refine wp_ite (fun hbig => absurd hbig ht.not_tooBig) fun _ =>
      wp_ite (fun _ => wp_panic.mpr (by intro h; cases h)) fun _ => wp_set.mpr ⟨?_, hsb, hu⟩
    refine Log.Room.write_mem ht (.inl ?_)
    rw [hu, Fs.sb_setInode, hsb]
    exact hi
  unfold itrunc
  refine (itruncDirect_room NDIRECT 0 s (Nat.le_refl _) hg hB hr.addr h).seq ?_
  rintro _ t ⟨ht, hsb, hinum, hind, hdata⟩
  simp only [wp_bind, wp_inode, hind]
  refine wp_ite (fun h0 => ?_) fun _ => wp_pure.mpr ?_
  · simp only [wp_bind, wp_bread]
    rw [hdata _ (hr.ind h0)]
    refine (itruncIndirect_room _ NINDIRECT 0 t (Nat.le_refl _) (hsb ▸ hB) (hsb ▸ hr.entry h0) ht).imp ?_
    rintro _ u ⟨hu, hsb', hic'⟩
    refine (bfree_room (by rw [hsb', hsb]; exact hB) (by rw [hsb', hsb]; exact hr.addr _ (Nat.le_refl _) h0) hu).imp ?_
    rintro _ v ⟨hv, hsb'', hic'', -⟩
    rw [wp_setDin]
    have hend' := hend (v.setInode k fun ip => { ip with din := ip.din.setAddr NDIRECT 0 }) hv
      ((hsb''.trans hsb').trans hsb) (by rw [Fs.icache_setInode, upd_same, hic'', hic']; exact hinum)
    rwa [wp_bind] at hend'
  · have hend' := hend t ht hsb hinum
    rwa [wp_bind] at hend'

/-- The entry `k` of the cache has the inode `i`, as it is on disk if it was read. -/
structure Fs.Kept (s : Fs) (k : Fin NINODE) (i : Nat) : Prop where
  geom : s.sb.Geom
  lt : i < s.sb.ninodes
  inum : (s.icache k).inum = i
  read : (s.icache k).valid = true → (s.icache k).din = s.dinode i ∧ (s.dinode i).type ≠ 0
  owned : Owned s.sb s.blk s.dinode ∅

theorem Inv.kept (h : Inv g s) (hat : g.At k i) : s.Kept k i := by
  have hinum := h.inum_eq hat
  have hpos := h.ref_pos hat
  have hlt := (h.at_lt hat).2
  refine ⟨h.geom', by rw [h.sb]; exact hlt, hinum, fun hv => ⟨?_, ?_⟩, by rw [h.sb]; exact h.disk.owned⟩
  · exact hinum ▸ h.cache.coherent k hpos hv
  · have := h.cache.loaded k hpos hv
    rw [hinum, h.disk.node_eq i hlt] at this
    exact this

theorem Fs.Kept.inRange (h : s.Kept k i) (hv : (s.icache k).valid = true) : s.InRange k := by
  obtain ⟨hd, hty⟩ := h.read hv
  have hptr : ∀ p, (s.dinode i).ptr s.blk p ≠ 0 → s.sb.InData ((s.dinode i).ptr s.blk p) :=
    fun p hp => h.owned.inData h.lt hty hp
  constructor
  · rw [hd]
    intro q hle hq
    rw [← Dinode.ptr_of_le _ s.blk hle] at hq ⊢
    exact (hptr q hq).2
  · rw [hd]
    intro hq
    rw [← Dinode.ptr_of_le _ s.blk (Nat.le_refl _)] at hq ⊢
    exact hptr _ hq
  · rw [hd]
    intro h0 j hj hne
    rw [← (s.dinode i).ptr_entry s.blk hj h0] at hne ⊢
    exact (hptr _ hne).2

theorem iput_room (h : s.Kept k i) (hB : MapCost B 0 s.sb) (hi : logKey (s.sb.iblock i) ∈ B)
    (hroom : s.log.Room N B c) : Wp (iput k) s (fun _ t => t.log.Room N B c) Stop.notTooBig := by
  unfold iput acquiresleep
  simp only [wp_bind, wp_get]
  refine wp_ite (fun _ => wp_throw.mpr (by intro h; cases h)) fun _ => ?_
  simp only [wp_setInode, wp_inode, wp_releasesleep, Fs.icache_setInode, upd_same]
  refine wp_ite (fun hc => ?_) fun _ => wp_pure.mpr hroom
  simp only [wp_bind, wp_inode, Fs.icache_setInode, upd_same]
  refine wp_ite (fun _ => ?_) fun _ => wp_pure.mpr hroom
  obtain ⟨u, hu⟩ : ∃ u, u = s.setInode k fun ip => { ip with lock := some s.cur } := ⟨_, rfl⟩
  have hentry : u.icache k = { s.icache k with lock := some s.cur } := by
    rw [hu, Fs.icache_setInode, upd_same]
  have hkept : u.Kept k i := by
    refine ⟨hu ▸ h.geom, hu ▸ h.lt, by rw [hentry]; exact h.inum, fun hv => ?_, hu ▸ h.owned⟩
    rw [hentry] at hv ⊢
    exact hu ▸ h.read hv
  have hkey : logKey (u.sb.iblock (u.icache k).inum) ∈ B := by
    rw [hkept.inum, hu]
    exact hi
  rw [← hu]
  simp only [wp_bind, wp_setDin, wp_setInode]
  refine (itrunc_room hkept.geom (hu ▸ hB) (hkept.inRange (by rw [hentry]; exact hc.1)) hkey
    (by rw [hu]; exact hroom)).imp ?_
  rintro _ t ⟨ht, hsb, hin⟩
  have hkey' : logKey ((t.setInode k fun ip => { ip with din := { ip.din with type := 0 } }).sb.iblock
      ((t.setInode k fun ip => { ip with din := { ip.din with type := 0 } }).icache k).inum) ∈ B := by
    rw [Fs.icache_setInode, upd_same, Fs.sb_setInode, hsb]
    exact hin ▸ hkey
  exact (iupdate_room (c := c) (ι := 0)
    (s := t.setInode k fun ip => { ip with din := { ip.din with type := 0 } }) (.inl hkey') ht).imp
    fun _ _ hu => hu

theorem drop_room (h : s.Kept k i) (hB : MapCost B 0 s.sb) (hroom : s.log.Room N B (c + 1)) :
    Wp (iput k) s (fun _ t => t.log.Room N B c) Stop.notTooBig :=
  (iput_room h (hB.insert _) (Finset.mem_insert_self _ _)
    (hroom.insert (logKey (s.sb.iblock i)))).imp fun _ _ ht => ht.subset (Finset.subset_insert _ _)

theorem iunlockput_room (h : Inv g s) (hk : k ∈ g.locks) (hat : g.At k i) (hB : MapCost B 0 g.sb)
    (hi : logKey (g.sb.iblock i) ∈ B) (hroom : s.log.Room N B c) :
    Wp (iunlockput k) s (fun _ t => t.log.Room N B c) Stop.notTooBig := by
  unfold iunlockput
  refine ((iunlock_calm k).also (iunlock_spec h hk (fun _ => True))).seq ?_
  rintro _ t ⟨hlog, ht, -⟩
  exact iput_room (ht.kept hat) (ht.sb.symm ▸ hB) (ht.sb.symm ▸ hi) (hlog ▸ hroom)

/-! ## Entries -/

theorem blocksOf_dirent (e : Nat) : blocksOf (DESIZE * e) DESIZE = 1 := by
  unfold blocksOf
  simp only [DESIZE, DIRSIZ, BSIZE]
  rw [if_neg (by decide)]
  omega

theorem Fs.Spare.of_room (h : s.log.Room N B (c + 1)) : s.Spare N B 0 c k := by
  unfold Fs.Spare Dinode.account Dinode.extra
  split
  · exact h
  · exact h.insert _

theorem store_room {f : Dinode → Dinode} (h : Inv g s) (hat : g.At k i)
    (hi : logKey (g.sb.iblock i) ∈ B) (hroom : s.log.Room N B c) :
    Wp (iupdate k) (s.setInode k fun ip => { ip with din := f ip.din })
      (fun _ t => t.log.Room N B c) Stop.notTooBig := by
  refine (iupdate_room (c := c) (ι := 0) (s := s.setInode k _) (.inl ?_) hroom).imp fun _ _ hu => hu
  rw [Fs.icache_setInode, upd_same, Fs.sb_setInode, h.sb]
  exact (h.inum_eq hat).symm ▸ hi

theorem dirlink_room (h : Inv g s) (hop : g.op = true) (hk : k ∈ g.locks) (hat : g.At k i)
    (hdir : (g.node i).type = T_DIR) (hB : MapCost B 0 g.sb) (hi : logKey (g.sb.iblock i) ∈ B)
    (name : List UInt8) (m : Nat) (hroom : s.log.Room N B (c + 2)) :
    Wp (dirlink k name m) s (fun _ t => t.log.Room N B c) Stop.notTooBig := by
  have hdev : (g.node i).type ≠ T_DEV := by
    rw [hdir]
    decide
  unfold dirlink
  refine ((dirlookup_calm h hk hat hdir name).also (dirlookup_spec h hk hat hdir name)).seq ?_
  rintro (_ | ⟨k', off⟩) t ⟨hlog, ht⟩
  · obtain ⟨hts, -, hal⟩ := ht
    rw [hts]
    simp only [wp_bind, wp_inode]
    rw [h.dir_size hk hat]
    refine (dirlinkScan_spec h hk hat hdir hal _ _ 0 (by omega) (Nat.zero_le _)
      fun j hj => absurd hj (by omega)).imp ?_
    rintro _ t ⟨hts, rfl⟩
    rw [hts]
    refine (writei_room (N := N) (c := c) (β := 0) (ι := 0) (h.loaded hk hat hdev) (h.inOp hop) _ _ (h.sb.symm ▸ hB)
      (.inl (h.sb.symm ▸ hi)) ?_).imp fun r u hu => ?_
    · rw [length_bytes, blocksOf_dirent]
      exact .of_room hroom
    · exact wp_ite (fun _ => wp_panic.mpr (by intro h; cases h)) fun _ => wp_pure.mpr hu
  · obtain ⟨e, -, -, ht⟩ := ht
    rw [wp_bind]
    obtain ⟨j, hj⟩ : ∃ j, j = ((g.node i).ent e).inum := ⟨_, rfl⟩
    rw [← hj] at ht
    rw [← hlog] at hroom
    -- The inode of the entry may go away.
    exact (drop_room (ht.kept (.inl List.mem_cons_self)) (ht.sb.symm ▸ hB)
      (hroom.mono (Nat.le_succ (c + 1)))).imp fun _ u hu => wp_pure.mpr hu

theorem ialloc_room (h : Inv g s) (type : Int16) (hroom : s.log.Room N B (c + 1)) :
    Wp (ialloc ROOTDEV type) s (fun k t => t.log.Room N (insert (logKey (g.sb.iblock (t.icache k).inum)) B) c)
      Stop.notTooBig := by
  unfold ialloc
  rw [wp_bind, wp_get]
  split
  next i hi =>
    refine (bput_room hroom _ _).seq (fun _ t ht => ?_)
    refine ((iget_calm ROOTDEV i).and (iget_inum ROOTDEV i)).mono ?_ fun _ he => he.1
    rintro k u ⟨hu, hinum⟩
    rw [hu.log, hinum, ← h.sb]
    exact ht.1.insert_listed ht.2
  next => exact wp_panic.mpr (by intro h; cases h)

/-! ## Making an inode -/

def TypesKept (g : View) (t : Fs) : Prop :=
  ∃ node, Inv { g with node := node } t ∧ ∀ j, g.Locked j → (node j).type = (g.node j).type

theorem dirlink_types (h : Inv g s) (hop : g.op = true) (hk : k ∈ g.locks) (hat : g.At k i)
    (hdir : (g.node i).type = T_DIR) (name : List UInt8) {m : Nat} (hm : m < g.sb.ninodes) :
    Wp (dirlink k name m) s (fun _ t => TypesKept g t) fun _ => True := by
  refine (dirlink_spec h hop hk hat hdir name hm).mono ?_ fun _ _ => trivial
  rintro r t (⟨-, -, -, ht⟩ | ⟨-, e, node, -, hnl, ht, hnode⟩)
  · refine ⟨_, ht, fun j _ => ?_⟩
    by_cases hj : j = i
    · rw [hj, upd_same]
      rfl
    · rw [upd_ne _ _ hj]
  · refine ⟨node, ht, fun j hj => ?_⟩
    rcases hnode with rfl | ⟨rfl, -⟩
    · rfl
    · rw [View.drop_ne]
      rintro rfl
      exact hnl hj

theorem createDots_room (h : Inv g s) (hop : g.op = true) {ip dp : Fin NINODE} {d : Nat}
    (hip : ip ∈ g.locks) (hdp : dp ∈ g.locks) (hati : g.At ip i) (hatd : g.At dp d)
    (hdir : (g.node i).type = T_DIR) (hB : MapCost B 0 g.sb) (hi : logKey (g.sb.iblock i) ∈ B)
    (hd : logKey (g.sb.iblock d) ∈ B) (hroom : s.log.Room N B (c + 4)) :
    Wp (createDots ip dp) s (fun _ t => t.log.Room N B c ∧ TypesKept g t) Stop.notTooBig := by
  have hLi : g.Locked i := ⟨ip, hip, hati⟩
  unfold createDots
  simp only [wp_bind, wp_setDin]
  refine ((store_room (f := fun d => { d with nlink := d.nlink + 1 }) h hatd hd hroom).also
    (nlink_spec h hop hdp hatd (· + 1))).imp ?_
  rintro _ t ⟨hr, ht⟩
  obtain ⟨node₁, hnode₁⟩ :
      ∃ n, n = upd g.node d { g.node d with nlink := (g.node d).nlink + 1 } := ⟨_, rfl⟩
  rw [← hnode₁] at ht
  have htype₁ : ∀ j, (node₁ j).type = (g.node j).type := fun j => by
    rw [hnode₁]
    by_cases hj : j = d
    · rw [hj, upd_same]
    · rw [upd_ne _ _ hj]
  rw [wp_inode, ht.inum_eq hati]
  have hdir₁ : (node₁ i).type = T_DIR := (htype₁ i).trans hdir
  refine ((dirlink_room (c := c + 2) ht hop hip hati hdir₁ hB hi dot i hr).also
    (dirlink_types ht hop hip hati hdir₁ dot (h.at_lt hati).2)).imp ?_
  rintro r u ⟨hr, node₂, hu, htype₂⟩
  refine wp_ite (fun _ => wp_panic.mpr (by intro h; cases h)) fun _ => ?_
  simp only [wp_bind, wp_inode]
  dsimp only at hu
  rw [hu.inum_eq hatd]
  have hdir₂ : (node₂ i).type = T_DIR := (htype₂ i hLi).trans hdir₁
  refine ((dirlink_room (c := c) hu hop hip hati hdir₂ hB hi dotdot d hr).also
    (dirlink_types hu hop hip hati hdir₂ dotdot (h.at_lt hatd).2)).imp ?_
  rintro r v ⟨hr, node₃, hv, htype₃⟩
  refine wp_ite (fun _ => wp_panic.mpr (by intro h; cases h)) fun _ => wp_pure.mpr ⟨hr, node₃, hv, ?_⟩
  exact fun j hj => ((htype₃ j hj).trans (htype₂ j hj)).trans (htype₁ j)

theorem createNew_room {dp : Fin NINODE} {d : Nat}
    (h : Inv { g with refs := [(dp, d)], locks := {dp} } s) (hop : g.op = true)
    (hdir : (g.node d).type = T_DIR) (name : List UInt8)
    (type major minor : Int16) (hB : MapCost B 0 g.sb) (hd : logKey (g.sb.iblock d) ∈ B)
    (hroom : s.log.Room N B (c + 7)) :
    Wp (createNew dp name type major minor) s (fun _ t => t.log.Room N B c) Stop.notTooBig := by
  have hatd : View.At { g with refs := [(dp, d)], locks := {dp} } dp d := .inl List.mem_cons_self
  have hdp := Finset.mem_singleton_self dp
  unfold createNew
  simp only [wp_bind, wp_inode]
  rw [(h.cache.slot dp (h.ref_pos hatd)).1]
  refine ((ialloc_room (c := c + 6) h type hroom).also (ialloc_spec h hop (fun j hj => ?_) type)).imp ?_
  · rw [List.mem_singleton.mp hj]
    change (g.node d).type ≠ 0
    rw [hdir]
    decide
  rintro ip t ⟨hr, i, hi0, hi, hfree, ht⟩
  have hne : i ≠ d := by
    rintro rfl
    exact absurd (hfree.symm.trans hdir) (by decide)
  have hrefi : (ip, i) ∈ [(ip, i), (dp, d)] := List.mem_cons_self
  have hrefd : (dp, d) ∈ [(ip, i), (dp, d)] := List.mem_cons_of_mem _ List.mem_cons_self
  have hipdp : ip ≠ dp := ht.ne_of_at (.inl hrefi) (.inl hrefd) hne
  rw [ht.inum_eq (.inl hrefi)] at hr
  -- The block of the new inode is listed.
  obtain ⟨B', hB'⟩ : ∃ B', B' = insert (logKey (g.sb.iblock i)) B := ⟨_, rfl⟩
  have hmap : MapCost B' 0 g.sb := hB' ▸ hB.insert _
  have hki : logKey (g.sb.iblock i) ∈ B' := hB' ▸ Finset.mem_insert_self _ _
  have hkd : logKey (g.sb.iblock d) ∈ B' := hB' ▸ Finset.mem_insert_of_mem hd
  replace hr : t.log.Room N B' (c + 6) := hB' ▸ hr
  refine ((ilock_calm ip).also (ilock_spec ht (.inl hrefi) (by simpa using hipdp))).imp ?_
  rintro _ u ⟨hlog, hu, -⟩
  rw [← hlog] at hr
  have hip : ip ∈ insert ip ({dp} : Finset (Fin NINODE)) := Finset.mem_insert_self _ _
  have hdp' : dp ∈ insert ip ({dp} : Finset (Fin NINODE)) := Finset.mem_insert_of_mem hdp
  simp only [wp_setDin]
  refine ((store_room (f := fun d => { d with major := major, minor := minor, nlink := 1 }) hu (.inl hrefi)
    hki hr).also (store_spec hu hop hip (.inl hrefi)
      (f := fun d => { d with major := major, minor := minor, nlink := 1 }) rfl)).imp ?_
  rintro _ v ⟨hr, hv⟩
  dsimp only at hv
  rw [upd_upd, upd_same] at hv
  obtain ⟨g₁, hg₁⟩ : ∃ g₁ : View, g₁ = { g with
    refs := [(ip, i), (dp, d)]
    locks := insert ip {dp}
    node := upd g.node i (blankNode type major minor) } := ⟨_, rfl⟩
  replace hv : Inv g₁ v := hg₁ ▸ hv
  have hLd : g₁.Locked d := hg₁ ▸ ⟨dp, hdp', .inl hrefd⟩
  have hdir₁ : (g₁.node d).type = T_DIR := by
    rw [hg₁]
    change (upd g.node i _ d).type = T_DIR
    rw [upd_ne _ _ hne.symm]
    exact hdir
  have hsb₁ : g₁.sb = g.sb := by rw [hg₁]
  have hmid : Wp (if type = T_DIR then createDots ip dp else return ()) v
      (fun _ t => t.log.Room N B' (c + 2) ∧ TypesKept g₁ t) Stop.notTooBig := by
    refine wp_ite (fun htd => ?_) fun _ => wp_pure.mpr ⟨hr.mono (by omega), g₁.node, hv, fun _ _ => rfl⟩
    subst hg₁
    refine createDots_room hv hop hip hdp' (.inl hrefi) (.inl hrefd) ?_ hmap hki hkd hr
    change (upd g.node i _ i).type = T_DIR
    rw [upd_same]
    exact htd
  refine hmid.imp ?_
  rintro _ w ⟨hr, node, hw, hkept⟩
  have hdird : (node d).type = T_DIR := (hkept d hLd).trans hdir₁
  subst hg₁
  dsimp only at hw
  rw [hw.inum_eq (.inl hrefi)]
  refine ((dirlink_room (c := c) hw hop hdp' (.inl hrefd) hdird hmap hkd name i hr).also
    (dirlink_types hw hop hdp' (.inl hrefd) hdird name hi)).imp ?_
  rintro r x ⟨hr, node', hx, -⟩
  refine wp_ite (fun _ => wp_panic.mpr (by intro h; cases h)) fun _ => ?_
  rw [wp_bind]
  refine (iunlockput_room hx hdp' (.inl hrefd) hmap hkd hr).imp fun _ y hy => wp_pure.mpr ?_
  exact hy.subset (hB' ▸ Finset.subset_insert _ _)

theorem release_room (h : Inv g s) (hk : k ∈ g.locks) (hat : g.At k i) (hB : MapCost B 0 g.sb)
    (hroom : s.log.Room N B (c + 1)) : Wp (iunlockput k) s (fun _ t => t.log.Room N B c) Stop.notTooBig :=
  (iunlockput_room h hk hat (hB.insert _) (Finset.mem_insert_self _ _)
    (hroom.insert (logKey (g.sb.iblock i)))).imp fun _ _ ht => ht.subset (Finset.subset_insert _ _)

theorem create_room (h : Inv g s) (hin : g.InCall) (hset : g.Settled) (path : List UInt8)
    (type major minor : Int16) (hB : MapCost B 0 g.sb) (hroom : s.log.Room N B (c + 8)) :
    Wp (create path type major minor) s (fun _ t => t.log.Room N B c) Stop.notTooBig := by
  unfold create
  refine ((nameiparent_calm h hin.toRunning hin.op hin.locks hset path).also
    (nameiparent_spec h hin.toRunning hin.op hin.locks path)).seq ?_
  rintro (_ | ⟨dp, x⟩) t ⟨hlog, ht⟩
  · exact wp_pure.mpr (hlog ▸ hroom.mono (by omega))
  obtain ⟨node, d, ht, -, -, hdir, -⟩ := ht
  dsimp only
  rw [← hlog] at hroom
  rw [hin.refs] at ht
  refine ((ilock_calm dp).also (ilock_spec ht (.inl List.mem_cons_self) (by simp [hin.locks]))).seq ?_
  rintro _ u ⟨hlog, hu, -⟩
  dsimp only at hu
  rw [hin.locks, insert_empty_eq] at hu
  rw [← hlog] at hroom
  have hdp := Finset.mem_singleton_self dp
  refine ((dirlookup_calm hu hdp (.inl List.mem_cons_self) hdir x).also
    (dirlookup_spec hu hdp (.inl List.mem_cons_self) hdir x)).seq ?_
  rintro (_ | ⟨ip, off⟩) v ⟨hlog, hv⟩
  · obtain ⟨rfl, -⟩ := hv
    -- The block of the directory is accounted for from now on.
    refine (createNew_room (g := { g with node := node }) (c := c) hu hin.op hdir x type major minor
      (hB.insert (logKey (g.sb.iblock d))) (Finset.mem_insert_self _ _) (hroom.insert _)).seq
      (fun _ w hw => wp_pure.mpr (hw.subset (Finset.subset_insert _ _)))
  obtain ⟨e, -, -, hv⟩ := hv
  dsimp only at hv ⊢
  rw [← hlog] at hroom
  obtain ⟨i, hi⟩ : ∃ i, i = ((node d).ent e).inum := ⟨_, rfl⟩
  rw [← hi] at hv
  refine ((release_room (c := c + 7) hv hdp (.inl (List.mem_cons_of_mem _ List.mem_cons_self)) hB
    hroom).also (iunlockput_spec hv hin.op (List.Perm.swap _ _ _) hdp)).seq ?_
  rintro _ w ⟨hr, hw⟩
  dsimp only at hw
  rw [Finset.erase_singleton] at hw
  refine ((ilock_calm ip).also (ilock_spec hw (.inl List.mem_cons_self) (by simp))).seq ?_
  rintro _ y ⟨hlog, hy, -⟩
  dsimp only at hy
  rw [insert_empty_eq] at hy
  rw [← hlog] at hr
  simp only [wp_bind, wp_inode]
  refine wp_ite (fun _ => wp_pure.mpr (hr.mono (by omega))) fun _ => ?_
  exact (release_room (c := c + 6) hy (Finset.mem_singleton_self _) (.inl List.mem_cons_self) hB hr).seq
    (fun _ z hz => wp_pure.mpr (hz.mono (by omega)))

end Xv6
