import Xv6.Fs.Cache

/-!
# What the inode layer does

One statement for each function that changes an inode or its content, on the
view: `iput` and `iunlockput`, `ialloc`, storing a changed inode, `readi` and
`writei`.
-/

namespace Xv6

open Hoare Table Scan Bytes

variable {g : View} {s : Fs} {k : Fin NINODE} {i : Nat}

/-! ## Changing one node -/

section Disk

variable {sb : Superblock} {blk blk' : Nat → Block} {I I' : Nat → Dinode} {node : Nat → Node}

variable {X : Set Nat}

theorem Owned.table_congr (h : Owned sb blk I X)
    (hI : ∀ j < sb.ninodes, I' j = I j) : Owned sb blk I' X := by
  refine ⟨h.meta_used, h.pool.congr (fun q => ?_) (fun _ => Iff.rfl)⟩
  unfold Superblock.own
  by_cases hq : q.1 < sb.ninodes
  · rw [hI _ hq]
  · rw [if_neg fun hc => hq hc.1, if_neg fun hc => hq hc.1]

variable {d : Dinode}

theorem absNode_congr (h : d.type ≠ 0 → ∀ o, d.contents blk' o = d.contents blk o) :
    absNode blk' d = absNode blk d := by
  refine Node.ext rfl rfl rfl rfl rfl (funext fun o => ?_)
  unfold absNode
  by_cases hc : d.type ≠ 0 ∧ d.type ≠ T_DEV ∧ o < d.size.toNat
  · simp only [if_pos hc, h hc.1]
  · simp only [if_neg hc]

theorem absNode_free (blk : Nat → Block) (h : d.type = 0) :
    absNode blk d = ⟨0, d.major, d.minor, d.nlink, d.size.toNat, fun _ => 0⟩ := by
  refine Node.ext h rfl rfl rfl rfl (funext fun o => ?_)
  unfold absNode
  simp only [h, ne_eq, not_true_eq_false, false_and, if_false]

variable {d' : Dinode}

theorem DiskInv.replace (h : DiskInv sb blk I node) (hi : i < sb.ninodes)
    (hI : ∀ j < sb.ninodes, I' j = upd I i d' j) (ho : Owned sb blk' (upd I i d') ∅)
    (hptr : ∀ j < sb.ninodes, j ≠ i → (I j).type ≠ 0 → ∀ p, (I j).ptr blk' p = (I j).ptr blk p)
    (hcont : ∀ j < sb.ninodes, j ≠ i → (I j).type ≠ 0 → ∀ o, (I j).contents blk' o = (I j).contents blk o)
    (hholes : d'.type ≠ 0 → d'.type ≠ T_DEV → NoHoles blk' d')
    (hent : d'.type = T_DIR → (absNode blk' d').EntriesIn sb.ninodes) :
    DiskInv sb blk' I' (upd node i (absNode blk' d')) := by
  refine ⟨ho.table_congr hI, fun j hj => ?_, fun j hj => ?_, fun j hj ht hd => ?_,
    fun j hj ht => ?_⟩
  · rw [hI j hj]
    by_cases he : j = i
    · subst he
      rw [upd_same, upd_same]
    · rw [upd_ne _ _ he, upd_ne _ _ he, h.node_eq j hj]
      exact (absNode_congr fun ht => hcont j hj he ht).symm
  · rw [upd_ne _ _ (by omega), h.node_out j hj]
  · rw [hI j hj]
    by_cases he : j = i
    · subst he
      rw [upd_same] at ht hd ⊢
      exact hholes ht hd
    · rw [upd_ne _ _ he] at ht hd ⊢
      have hold := h.noHoles j hj ht hd
      rw [h.node_eq j hj] at ht
      refine ⟨hold.1, fun o ho => ?_⟩
      rw [Dinode.block, hptr j hj he ht]
      exact hold.2 o ho
  · by_cases he : j = i
    · subst he
      rw [upd_same] at ht ⊢
      exact hent ht
    · rw [upd_ne _ _ he] at ht ⊢
      exact h.entries j hj ht

theorem Owned.same_of_data (h : Owned sb blk I X)
    (hb : ∀ c, sb.InData c → blk' c = blk c) {j : Nat} (hj : j < sb.ninodes) (ht : (I j).type ≠ 0) :
    (∀ p, (I j).ptr blk' p = (I j).ptr blk p) ∧ ∀ o, (I j).contents blk' o = (I j).contents blk o :=
  ⟨fun p => Dinode.ptr_congr _ (fun h0 => hb _ (h.addr_inData hj ht (Nat.le_refl _) h0)) p,
    fun o => Dinode.contents_congr _ (fun _ hp => hb _ (h.inData hj ht hp)) o⟩

theorem Owned.set_fields (h : Owned sb blk (upd I i d) X)
    (ht : d'.type = d.type) (ha : d'.addrs = d.addrs) : Owned sb blk (upd I i d') X := by
  refine ⟨h.meta_used, h.pool.congr (fun q => ?_) (fun _ => Iff.rfl)⟩
  unfold Superblock.own
  by_cases hq : q.1 = i
  · rw [hq, upd_same, upd_same, ht, Dinode.ptr_of_addrs ha]
  · rw [upd_ne _ _ hq, upd_ne _ _ hq]

theorem DiskInv.store (h : DiskInv sb blk I node) (hg : sb.Geom) (hi : i < sb.ninodes) (v : Block) (hI : ∀ j < sb.ninodes, I' j = upd I i d' j)
    (ht : d'.type = (I i).type) (hs : d'.size = (I i).size) (ha : d'.addrs = (I i).addrs) :
    DiskInv sb (upd blk (sb.iblock i) v) I' (upd node i (absNode blk d')) := by
  have hb : ∀ c, sb.InData c → upd blk (sb.iblock i) v c = blk c :=
    fun c hc => upd_ne _ _ (hg.iblock_not_inData hi hc).symm
  have hsame : (I i).type ≠ 0 → (∀ p, (I i).ptr (upd blk (sb.iblock i) v) p = (I i).ptr blk p) ∧
      ∀ o, (I i).contents (upd blk (sb.iblock i) v) o = (I i).contents blk o :=
    fun h0 => h.owned.same_of_data hb hi h0
  have habs : absNode (upd blk (sb.iblock i) v) d' = absNode blk d' :=
    absNode_congr fun h0 o => by
      rw [Dinode.contents_of_addrs ha, Dinode.contents_of_addrs ha]
      exact (hsame (ht ▸ h0)).2 o
  have hown : Owned sb blk (upd I i d') ∅ :=
    Owned.set_fields (d := I i) (by rw [upd_eq_self]; exact h.owned) ht ha
  rw [← habs]
  refine h.replace hi hI (hown.upd_inode hg hi v)
    (fun j hj _ hu => (h.owned.same_of_data hb hj hu).1)
    (fun j hj _ hu => (h.owned.same_of_data hb hj hu).2) (fun h0 h1 => ?_) (fun h0 => ?_)
  · have hold := h.noHoles i hi
    rw [h.node_eq i hi] at hold
    obtain ⟨hsz, hmap⟩ := hold (fun hc => h0 (ht.trans hc)) (fun hc => h1 (ht.trans hc))
    refine ⟨by rw [hs]; exact hsz, fun o ho => ?_⟩
    rw [hs] at ho
    rw [Dinode.block, Dinode.ptr_of_addrs ha, (hsame (ht ▸ h0)).1]
    exact hmap o ho
  · rw [habs]
    have hold := h.entries i hi
    rw [h.node_eq i hi] at hold
    have hdata : (absNode blk d').data = (absNode blk (I i)).data := by
      unfold absNode
      simp only [ht, hs, Dinode.contents_of_addrs ha]
    have hsize : (absNode blk d').size = (absNode blk (I i)).size := by
      unfold absNode
      rw [hs]
    intro e he
    rw [hsize] at he
    have := hold (ht.symm.trans h0) e he
    unfold Node.ent at this ⊢
    rwa [hdata]

end Disk

/-! ## Dropping a reference -/

def Node.freed (n : Node) : Node := { n with type := 0, size := 0, data := fun _ => 0 }

/-- Something points to the inode `i`: a process, or the running code. -/
def View.Uses (g : View) (i : Nat) : Prop := ∃ k, g.At k i

variable {r : List (Fin NINODE × Nat)}

/-- The reference count of an entry is one when the last pointer to it is given
up. -/
theorem Inv.ref_one_iff (h : Inv g s) (hp : g.refs.Perm ((k, i) :: r)) :
    (s.icache k).ref = 1 ↔ ¬ { g with refs := r }.Uses i := by
  have hk : g.At k i := .inl (hp.mem_iff.mpr List.mem_cons_self)
  have hinum := h.inum_eq hk
  have href := h.cache.ref_eq k
  rw [countRefs_perm hp, countRefs_cons, if_pos rfl] at href
  have hslot : ∀ l, 0 < (s.icache l).ref → (s.icache l).inum = i → l = k :=
    fun l hl he => h.cache.unique l k hl (h.ref_pos hk) (he.trans hinum.symm)
  constructor
  · rintro h1 ⟨l, hl⟩
    have hat : g.At l i := hl.imp (fun hm => hp.mem_iff.mpr (List.mem_cons_of_mem _ hm)) id
    have he := hslot l (h.ref_pos hat) (h.inum_eq hat)
    subst he
    rcases hl with hl | ⟨hl, -⟩
    · have := countRefs_pos (show (l, i) ∈ r from hl)
      omega
    · change 0 < g.owner.holds l at hl
      omega
  · intro hu
    by_contra hne
    refine hu ?_
    by_cases hh : 0 < g.owner.holds k
    · exact ⟨k, .inr ⟨hh, (h.cache.held k hh).1.symm.trans hinum⟩⟩
    · have hc : 0 < countRefs r k := by omega
      obtain ⟨⟨l, j⟩, hj, he⟩ := List.countP_pos_iff.mp hc
      simp only [decide_eq_true_eq] at he
      subst he
      refine ⟨l, .inl ?_⟩
      have := h.cache.handle _ (hp.mem_iff.mpr (List.mem_cons_of_mem _ hj))
      rw [← hinum, this]
      exact hj

theorem acquiresleep_spec (h : Inv g s) (hl : k ∉ g.locks) (E : Stop → Prop) : Wp (acquiresleep k) s
      (fun _ t => t = s.setInode k fun ip => { ip with lock := some s.cur }) E := by
  unfold acquiresleep setInode
  rw [wp_bind, wp_get]
  refine wp_ite (fun h1 => ?_) fun _ => wp_modify.mpr rfl
  rw [h.lock_none hl] at h1
  cases h1

/-- Dropping a reference that is not the last one, or one to an inode that has
links or was never read. -/
theorem iput_keep (h : Inv g s) (hp : g.refs.Perm ((k, i) :: r)) (hl : k ∉ g.locks)
    (hkeep : (s.icache k).valid = true → (g.node i).nlink = 0 → { g with refs := r }.Uses i)
    (E : Stop → Prop) :
    Wp (iput k) s (fun _ t => Inv { g with refs := r } t) E := by
  have hk : g.At k i := .inl (hp.mem_iff.mpr List.mem_cons_self)
  have hend : Inv { g with refs := r }
      (((s.setInode k fun ip => { ip with lock := some s.cur }).setInode k
        fun ip => { ip with lock := none }).setInode k fun ip => { ip with ref := ip.ref - 1 }) := by
    refine h.withCache rfl rfl rfl rfl rfl (((frame_setInode s k _).trans (frame_setInode _ k _)).trans
      (frame_setInode _ k _)) rfl rfl ?_
    simp only [Fs.icache_setInode, upd_upd, upd_same]
    have := h.cache.decr hp hl
    rwa [show { s.icache k with ref := (s.icache k).ref - 1 } =
      ({ s.icache k with ref := (s.icache k).ref - 1, lock := none } : Inode) by
        rw [← h.lock_none hl]] at this
  unfold iput
  refine (acquiresleep_spec h hl E).seq ?_
  rintro _ t rfl
  simp only [wp_bind, wp_inode, wp_releasesleep, wp_setInode, Fs.icache_setInode, upd_same]
  refine wp_ite (fun hc => ?_) fun _ => wp_pure.mpr hend
  simp only [wp_bind, wp_inode, Fs.icache_setInode, upd_same]
  refine wp_ite (fun h1 => ?_) fun _ => wp_pure.mpr hend
  · obtain ⟨hv, hn⟩ := hc
    have hd := h.cache.coherent k (h.ref_pos hk) hv
    rw [h.inum_eq hk] at hd
    have hlt := h.inum_lt (h.ref_pos hk)
    rw [h.inum_eq hk] at hlt
    rw [hd] at hn
    refine absurd (hkeep hv ?_) ((h.ref_one_iff hp).mp h1)
    rw [h.disk.node_eq i hlt]
    exact hn

variable {c : Fin NINODE → Inode}

theorem CacheInv.free {I I' : Nat → Dinode} (h : CacheInv g c I) (hp : g.refs.Perm ((k, i) :: r)) (hl : k ∉ g.locks)
    (hpos : 0 < (c k).ref) (hinum : (c k).inum = i) (hone : (c k).ref = 1) (n : Node) (d : Dinode)
    (hI : ∀ j < g.sb.ninodes, j ≠ i → I' j = I j) : CacheInv { g with refs := r, node := upd g.node i n }
      (upd c k ⟨(c k).dev, i, 0, none, false, d⟩) I' := by
  have hcount : ∀ l, countRefs g.refs l = countRefs r l + if l = k then 1 else 0 :=
    fun l => by rw [countRefs_perm hp, countRefs_cons]
  have hother : ∀ l, l ≠ k → 0 < (c l).ref → (c l).inum ≠ i := fun l hne hl he =>
    hne (h.unique l k hl hpos (he.trans hinum.symm))
  have hne : ∀ l, 0 < (upd c k ⟨(c k).dev, i, 0, none, false, d⟩ l).ref → l ≠ k := by
    rintro l hl0 rfl
    rw [upd_same] at hl0
    exact absurd hl0 (Nat.lt_irrefl 0)
  refine h.update (fun l hl0 => ?_) (fun l hl0 hvl => ?_) (fun l h1 h2 => ?_)
    (fun l => ?_) (fun j hj => ?_) (fun l => ?_) (fun l hl0 => ?_)
  · have he := hne l hl0
    rw [upd_ne _ _ he] at hl0 ⊢
    exact ⟨hl0, rfl, rfl⟩
  · have he := hne l hl0
    rw [upd_ne _ _ he] at hl0 hvl ⊢
    have hi := hother l he hl0
    rw [hI _ (h.slot l hl0).2.2 hi, upd_ne _ _ hi]
    exact ⟨h.coherent l hl0 hvl, h.loaded l hl0 hvl⟩
  · have he := hne l h2
    rw [upd_ne _ _ he, upd_ne _ _ (hother l he h1)]
    exact ⟨rfl, id, .inl⟩
  · have href := h.ref_eq l
    rw [hcount] at href
    by_cases he : l = k
    · subst he
      rw [upd_same]
      rw [if_pos rfl] at href
      change 0 = _
      omega
    · rw [upd_ne _ _ he, href, if_neg he, Nat.add_zero]
  · have hj' := h.handle j (hp.mem_iff.mpr (List.mem_cons_of_mem _ hj))
    by_cases he : j.1 = k
    · rw [he] at hj' ⊢
      rw [upd_same, ← hj', hinum]
    · rw [upd_ne _ _ he, hj']
  · by_cases he : l = k
    · subst he
      rw [upd_same, if_neg hl]
    · rw [upd_ne _ _ he, h.lock_eq]
  · have he : l ≠ k := fun he => hl (he ▸ hl0)
    rw [upd_ne _ _ he]
    exact h.locked l hl0

theorem Inv.of_frame (h : Inv g s) (hop : g.op = true) {t : Fs} (hf : Frame s t)
    {node : Nat → Node} {refs : List (Fin NINODE × Nat)} (hd : DiskInv g.sb t.blk t.dinode node)
    (hc : CacheInv { g with refs := refs, node := node } t.icache t.dinode) :
    Inv { g with refs := refs, node := node } t := by
  refine ⟨by rw [hf.sb, h.sb], h.geom, by rw [hf.cur, h.cur], ?_, hd, hc, ?_⟩
  · rw [← h.user]
    unfold Fs.user
    rw [hf.ftable, hf.proc]
  · rw [hf.log]
    exact ⟨h.log.committing, fun h0 => absurd (hop.symm.trans h0) (by decide), h.log.inOp⟩

/-- A reference to a loaded inode without links is the last pointer to it:
dropping it frees the inode. -/
theorem iput_free (h : Inv g s) (hop : g.op = true)
    (hp : g.refs.Perm ((k, i) :: r)) (hl : k ∉ g.locks) (hv : (s.icache k).valid = true)
    (hn : (g.node i).nlink = 0) (hu : ¬ { g with refs := r }.Uses i) :
    Wp (iput k) s (fun _ t =>
      Inv { g with refs := r, node := upd g.node i (g.node i).freed } t) Stop.scarce := by
  have hk : g.At k i := .inl (hp.mem_iff.mpr List.mem_cons_self)
  have hpos := h.ref_pos hk
  have hinum := h.inum_eq hk
  have hlt : i < g.sb.ninodes := hinum ▸ h.inum_lt hpos
  have hd : (s.icache k).din = s.dinode i := hinum ▸ h.cache.coherent k hpos hv
  have hnode := h.disk.node_eq i hlt
  have htype : (s.dinode i).type ≠ 0 := by
    have := h.cache.loaded k hpos hv
    rw [hinum, hnode] at this
    exact this
  have href := (h.ref_one_iff hp).mpr hu
  have howned : Owned s.sb s.blk s.dinode ∅ := by rw [h.sb]; exact h.disk.owned
  unfold iput
  refine (acquiresleep_spec h hl _).seq ?_
  rintro _ t rfl
  simp only [wp_bind, wp_inode, wp_releasesleep, wp_setInode, Fs.icache_setInode, upd_same]
  refine wp_ite (fun _ => ?_) fun hc => absurd ⟨hv, by rw [hd]; rw [hnode] at hn; exact hn⟩ hc
  simp only [wp_bind, wp_inode, Fs.icache_setInode, upd_same]
  refine wp_ite (fun _ => ?_) fun hc => absurd href hc
  simp only [wp_bind, wp_setDin, wp_setInode]
  refine (itrunc_spec (s := s.setInode k fun ip => { ip with lock := some s.cur })
    (I := s.dinode) (i := i) h.geom' (h.inOp hop) (by simp [hd]) (by simp [hinum])
    (by rw [Fs.sb_setInode, h.sb]; exact hlt) htype howned).imp ?_
  rintro _ t ⟨d, htr⟩
  have hfr := (frame_setInode s k fun ip => { ip with lock := some s.cur }).trans htr.frame
  refine (iupdate_spec (s := t.setInode k fun ip => { ip with din := { ip.din with type := 0 } })
    (hfr.inOp (h.inOp hop))).imp ?_
  rintro _ u ⟨hf, hc, hb⟩
  simp only [Fs.icache_setInode, upd_same, Fs.blk_setInode, Fs.sb_setInode, htr.icache,
    Fs.withDin, upd_upd, hinum, htr.frame.sb] at hc hb
  have hdata : ∀ c, g.sb.InData c → u.blk c = s.blk c := fun c hcd => by
    rw [hb, upd_ne _ _ ?_]
    · exact htr.data c (by rw [Fs.sb_setInode, h.sb]; exact hcd)
    · rw [h.sb]
      exact fun he => h.geom.iblock_not_inData hlt hcd he.symm
  have htable : ∀ j < g.sb.ninodes, u.dinode j = upd s.dinode i { d with type := 0 } j := by
    intro j hj
    have h1 := dinode_of_blk_eq (s := t) (i := i) (t := u) (d := { d with type := 0 })
      (hf.sb) (by rw [hb, htr.frame.sb]; rfl)
    have h2 := htr.table j (by rw [Fs.sb_setInode, h.sb]; exact hj)
    rw [h1]
    by_cases he : j = i
    · rw [he, upd_same, upd_same]
    · rw [upd_ne _ _ he, upd_ne _ _ he, h2, upd_ne _ _ he]
      rfl
  have howned' : Owned g.sb u.blk (upd s.dinode i { d with type := 0 }) ∅ := by
    have hzero : ({ d with type := 0 } : Dinode).type = 0 := rfl
    have h1 := htr.owned.congr_cleared (Dinode.ptr_of_addr_zero htr.cleared _) (.inl hzero)
    rw [Fs.sb_setInode, h.sb] at h1
    rw [hb, h.sb]
    exact h1.upd_inode h.geom hlt _
  have hfreed : absNode u.blk { d with type := 0 } = (g.node i).freed := by
    rw [absNode_free _ rfl, htr.fields, hnode]
    rfl
  have hdisk := h.disk.replace hlt htable howned'
    (fun j hj _ hu => (h.disk.owned.same_of_data hdata hj hu).1)
    (fun j hj _ hu => (h.disk.owned.same_of_data hdata hj hu).2)
    (fun h0 => absurd rfl h0) (fun h0 => absurd h0 (show ¬ (0 : Int16) = T_DIR by decide))
  rw [hfreed] at hdisk
  have hic : ((((u.setInode k fun ip => { ip with valid := false }).setInode k
      fun ip => { ip with lock := none }).setInode k fun ip => { ip with ref := ip.ref - 1 }).icache
      ) = upd s.icache k ⟨(s.icache k).dev, i, 0, none, false, { d with type := 0 }⟩ := by
    simp only [Fs.icache_setInode, hc, upd_upd, upd_same, href]
  refine h.of_frame hop ((((hfr.trans (frame_setInode t k _)).trans hf).trans
    (frame_setInode u k _)).trans ((frame_setInode _ k _).trans (frame_setInode _ k _))) hdisk ?_
  rw [hic]
  exact h.cache.free hp hl hpos hinum href _ _ fun j hj hne =>
    (htable j hj).trans (upd_ne _ _ hne)

open Classical in
/-- The nodes after the pointer to inode `i` is given up that is not in `r`. -/
noncomputable def View.drop (g : View) (i : Nat) (r : List (Fin NINODE × Nat)) : Nat → Node :=
  if (g.node i).nlink = 0 ∧ ¬ { g with refs := r }.Uses i then upd g.node i (g.node i).freed
  else g.node

theorem View.drop_keep (h : (g.node i).nlink = 0 → { g with refs := r }.Uses i) : g.drop i r = g.node :=
  if_neg fun hc => hc.2 (h hc.1)

section

variable (h : Inv g s) (hop : g.op = true) (hp : g.refs.Perm ((k, i) :: r)) (hl : k ∉ g.locks)

include h hop hp hl

theorem iput_valid (hv : (s.icache k).valid = true) :
    Wp (iput k) s (fun _ t => Inv { g with refs := r, node := g.drop i r } t) Stop.scarce := by
  unfold View.drop
  split
  next hc => exact iput_free h hop hp hl hv hc.1 hc.2
  next hc => exact iput_keep h hp hl (fun _ hn => by_contra fun hu => hc ⟨hn, hu⟩) _

theorem iput_read
    (hv : (g.node i).nlink = 0 → (s.icache k).valid = true) :
    Wp (iput k) s (fun _ t => Inv { g with refs := r, node := g.drop i r } t) Stop.scarce := by
  by_cases h0 : (g.node i).nlink = 0
  · exact iput_valid h hop hp hl (hv h0)
  · rw [View.drop_keep fun hc => absurd hc h0]
    exact iput_keep h hp hl (fun _ hc => absurd hc h0) _

theorem iput_spec :
    Wp (iput k) s (fun _ t => ∃ node, Inv { g with refs := r, node := node } t ∧
      (node = g.node ∨ node = g.drop i r ∧ (g.node i).type ≠ 0)) Stop.scarce := by
  have hat : g.At k i := .inl (hp.mem_iff.mpr List.mem_cons_self)
  by_cases hv : (s.icache k).valid = true
  · have hty := h.cache.loaded k (h.ref_pos hat) hv
    rw [h.inum_eq hat] at hty
    exact (iput_valid h hop hp hl hv).imp fun _ t ht => ⟨_, ht, .inr ⟨rfl, hty⟩⟩
  · exact (iput_keep h hp hl (fun hc => absurd hc hv) _).imp fun _ t ht => ⟨_, ht, .inl rfl⟩

end

/-- Dropping a reference to an inode whose lock the code holds: the process
sleeps for good. -/
theorem iput_asleep (h : Inv g s) (hl : k ∈ g.locks) {Q : Unit → Fs → Prop} :
    Wp (iput k) s Q fun e => e = .asleep := by
  unfold iput acquiresleep
  simp only [wp_bind, wp_get]
  refine wp_ite (fun _ => wp_throw.mpr rfl) fun h1 => ?_
  rw [h.cache.lock_eq, if_pos hl] at h1
  exact absurd rfl h1

theorem iunlockput_spec (h : Inv g s) (hop : g.op = true)
    (hp : g.refs.Perm ((k, i) :: r)) (hl : k ∈ g.locks) : Wp (iunlockput k) s (fun _ t =>
      Inv { g with refs := r, locks := g.locks.erase k, node := g.drop i r } t) Stop.scarce := by
  unfold iunlockput
  refine (iunlock_spec h hl _).seq ?_
  rintro _ t ⟨ht, _, hc⟩
  refine iput_valid ht hop hp (Finset.notMem_erase _ _) ?_
  rw [hc, upd_same]
  exact (h.cache.locked k hl).2

/-! ## Storing an inode -/

theorem CacheInv.store {I I' : Nat → Dinode} (h : CacheInv g c I)
    (hk : k ∈ g.locks) (hinum : (c k).inum = i) {n : Node} {d : Dinode}
    (ht : n.type = (g.node i).type) (hI : ∀ j < g.sb.ninodes, I' j = upd I i d j) :
    CacheInv { g with node := upd g.node i n } (upd c k { c k with din := d }) I' := by
  obtain ⟨hpos, hv⟩ := h.locked k hk
  have hother : ∀ l, l ≠ k → 0 < (c l).ref → (c l).inum ≠ i := fun l hne hl he =>
    hne (h.unique l k hl hpos (he.trans hinum.symm))
  refine h.update (fun l hl => ?_) (fun l hl hvl => ?_) (fun l h1 h2 => ?_)
    (fun l => ?_) (fun j hj => ?_) (fun l => ?_) (fun l hl => ?_)
  · by_cases he : l = k
    · subst he
      rw [upd_same]
      exact ⟨hpos, rfl, rfl⟩
    · rw [upd_ne _ _ he] at hl ⊢
      exact ⟨hl, rfl, rfl⟩
  · by_cases he : l = k
    · subst he
      rw [hI _ (h.slot l hpos).2.2, hinum, upd_same, upd_same, upd_same, ht, ← hinum]
      exact ⟨rfl, h.loaded l hpos hv⟩
    · rw [upd_ne _ _ he] at hl hvl ⊢
      have hi := hother l he hl
      rw [hI _ (h.slot l hl).2.2, upd_ne _ _ hi, upd_ne _ _ hi]
      exact ⟨h.coherent l hl hvl, h.loaded l hl hvl⟩
  · by_cases he : l = k
    · subst he
      rw [hinum, upd_same, upd_same]
      exact ⟨ht, id, fun _ => .inr hv⟩
    · rw [upd_ne _ _ he, upd_ne _ _ (hother l he h1)]
      exact ⟨rfl, id, .inl⟩
  · rw [← h.ref_eq l]
    by_cases he : l = k
    · rw [he, upd_same]
    · rw [upd_ne _ _ he]
  · rw [← h.handle j hj]
    by_cases he : j.1 = k
    · rw [he, upd_same]
    · rw [upd_ne _ _ he]
  · rw [← h.lock_eq l]
    by_cases he : l = k
    · rw [he, upd_same]
    · rw [upd_ne _ _ he]
  · have := h.locked l hl
    by_cases he : l = k
    · rw [he] at this ⊢
      rwa [upd_same]
    · rwa [upd_ne _ _ he]

/-- `iupdate` after an assignment to fields of a locked inode that say nothing
about its content. -/
theorem store_spec (h : Inv g s) (hop : g.op = true) (hk : k ∈ g.locks) (hat : g.At k i) {f : Dinode → Dinode} {a b c : Int16}
    (hf : f (s.icache k).din = { (s.icache k).din with major := a, minor := b, nlink := c }) :
    Wp (iupdate k) (s.setInode k fun ip => { ip with din := f ip.din }) (fun _ t =>
      Inv { g with node := upd g.node i { g.node i with major := a, minor := b, nlink := c } } t)
      Stop.scarce := by
  have hinum := h.inum_eq hat
  have hlt : i < g.sb.ninodes := hinum ▸ h.inum_lt (h.cache.locked k hk).1
  have hd : (s.icache k).din = s.dinode i := hinum ▸ h.din_eq hk
  rw [hd] at hf
  refine (iupdate_spec (s := s.setInode k fun ip => { ip with din := f ip.din })
    (h.inOp hop)).imp ?_
  rintro _ t ⟨hfr, hc, hb⟩
  simp only [Fs.icache_setInode, upd_same, Fs.blk_setInode, Fs.sb_setInode, hinum, hd, hf] at hb
  simp only [Fs.icache_setInode, hd, hf] at hc
  have htable := dinode_of_blk_eq (s := s) (i := i) hfr.sb hb
  have hI : ∀ j < g.sb.ninodes, t.dinode j =
      upd s.dinode i { s.dinode i with major := a, minor := b, nlink := c } j := fun j _ => by
    rw [htable]
  have hdisk := h.disk.store h.geom hlt ((s.blk (s.sb.iblock i)).setDinode (i % IPB)
    { s.dinode i with major := a, minor := b, nlink := c }) hI rfl rfl rfl
  have habs : absNode s.blk { s.dinode i with major := a, minor := b, nlink := c } =
      { g.node i with major := a, minor := b, nlink := c } := by
    rw [h.disk.node_eq i hlt]
    rfl
  rw [habs, ← h.sb, ← hb] at hdisk
  refine h.of_frame hop ((frame_setInode s k _).trans hfr) (h.sb ▸ hdisk) ?_
  rw [hc]
  exact h.cache.store hk hinum rfl (fun j _ => by rw [htable])

theorem nlink_spec (h : Inv g s) (hop : g.op = true) (hk : k ∈ g.locks) (hat : g.At k i)
    (f : Int16 → Int16) :
    Wp (iupdate k) (s.setInode k fun ip => { ip with din := { ip.din with nlink := f ip.din.nlink } })
      (fun _ t => Inv { g with node := upd g.node i { g.node i with nlink := f (g.node i).nlink } } t)
      Stop.scarce := by
  have hd := h.absNode_din hk
  rw [h.inum_eq hat] at hd
  rw [← hd]
  refine (store_spec h hop hk hat (f := fun d => { d with nlink := f d.nlink }) rfl).imp ?_
  intro _ t ht
  rw [← hd] at ht
  exact ht

theorem CacheInv.fresh {I I' : Nat → Dinode} (h : CacheInv g c I)
    (hnew : ∀ l, 0 < (c l).ref → (c l).inum ≠ i) (n : Node) (hI : ∀ j < g.sb.ninodes, j ≠ i → I' j = I j) :
    CacheInv { g with node := upd g.node i n } c I' := by
  refine h.update (fun l hl => ⟨hl, rfl, rfl⟩) (fun l hl hv => ?_) (fun l hl _ => ?_) h.ref_eq
    h.handle h.lock_eq h.locked
  · rw [hI _ (h.slot l hl).2.2 (hnew l hl), upd_ne _ _ (hnew l hl)]
    exact ⟨h.coherent l hl hv, h.loaded l hl hv⟩
  · rw [upd_ne _ _ (hnew l hl)]
    exact ⟨rfl, id, .inl⟩

/-- An entry in use is for an allocated inode, if the code holds no reference to
a free one. -/
theorem Inv.used_type (h : Inv g s) (href : ∀ j ∈ g.refs, (g.node j.2).type ≠ 0) {l : Fin NINODE}
    (hl : 0 < (s.icache l).ref) : (g.node (s.icache l).inum).type ≠ 0 := by
  rcases h.at_of_ref hl with hm | ⟨hm, he⟩
  · exact href _ hm
  · rw [← he]
    exact (h.cache.held l hm).2.1

theorem ialloc_spec (h : Inv g s) (hop : g.op = true) (href : ∀ j ∈ g.refs, (g.node j.2).type ≠ 0)
    (type : Int16) :
    Wp (ialloc ROOTDEV type) s (fun k t => ∃ i, 0 < i ∧ i < g.sb.ninodes ∧ (g.node i).type = 0 ∧
      Inv { g with refs := (k, i) :: g.refs,
                   node := upd g.node i ⟨type, 0, 0, 0, 0, fun _ => 0⟩ } t) Stop.scarce := by
  unfold ialloc
  rw [wp_bind, wp_get]
  split
  next i hi =>
    obtain ⟨h1, h2, h3, -⟩ := firstFrom_some hi
    have h0 : (s.dinode i).type = 0 := decide_eq_true_iff.mp h3
    have hlt : i < g.sb.ninodes := by
      rw [← h.sb]
      omega
    have hfree : (g.node i).type = 0 := by
      rw [h.disk.node_eq i hlt]
      exact h0
    have hnew : ∀ l, 0 < (s.icache l).ref → (s.icache l).inum ≠ i := fun l hl he =>
      h.used_type href hl (he ▸ hfree)
    refine (bput_spec (h.inOp hop) _ _).seq ?_
    rintro _ t ⟨hf, hc, hb⟩
    have htable := dinode_of_blk_eq (s := s) (i := i) hf.sb hb
    have hptr : ∀ b p, ({ Dinode.zero with type := type } : Dinode).ptr b p = 0 := fun b p =>
      Dinode.ptr_of_addr_zero (fun q _ => Dinode.addr_noBlocks { Dinode.zero with type := type } q) b p
    have hdata : ∀ c, g.sb.InData c → t.blk c = s.blk c := fun c hcd => by
      rw [hb, h.sb]
      exact upd_ne _ _ fun he => h.geom.iblock_not_inData hlt hcd he.symm
    have howned : Owned g.sb t.blk (upd s.dinode i { Dinode.zero with type := type }) ∅ := by
      rw [hb, h.sb]
      refine Owned.upd_inode ?_ h.geom hlt _
      refine ⟨h.disk.owned.meta_used, h.disk.owned.pool.congr (fun q => ?_) (fun _ => Iff.rfl)⟩
      unfold Superblock.own
      by_cases hq : q.1 = i
      · rw [hq, upd_same, hptr, ite_self, if_neg fun hc => hc.2 h0]
      · rw [upd_ne _ _ hq]
    have hI : ∀ j < g.sb.ninodes, t.dinode j =
        upd s.dinode i { Dinode.zero with type := type } j := fun j _ => by rw [htable]
    have hdisk := h.disk.replace hlt hI howned
      (fun j hj _ hu => (h.disk.owned.same_of_data hdata hj hu).1)
      (fun j hj _ hu => (h.disk.owned.same_of_data hdata hj hu).2)
      (fun _ _ => ⟨Nat.zero_le _, fun o ho => absurd ho (Nat.not_lt_zero o)⟩)
      (fun _ e he => absurd he (by
        change ¬ _ ≤ 0
        simp only [DESIZE, DIRSIZ]
        omega))
    have habs : absNode t.blk { Dinode.zero with type := type } =
        ⟨type, 0, 0, 0, 0, fun _ => 0⟩ := by
      refine Node.ext rfl rfl rfl rfl rfl (funext fun o => ?_)
      exact if_neg fun hc => absurd hc.2.2 (Nat.not_lt_zero o)
    rw [habs] at hdisk
    have hcache : CacheInv { g with node := upd g.node i ⟨type, 0, 0, 0, 0, fun _ => 0⟩ }
        t.icache t.dinode := by
      rw [hc]
      exact h.cache.fresh hnew _ fun j _ hne => by rw [htable, upd_ne _ _ hne]
    have hinv := h.of_frame hop hf hdisk hcache
    refine (iget_spec hinv ⟨h1, hlt⟩).imp ?_
    intro k u hu
    exact ⟨i, h1, hlt, hfree, hu⟩
  next => exact wp_panic.mpr trivial

end Xv6
