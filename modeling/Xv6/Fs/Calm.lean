import Xv6.Fs.LogRoom
import Xv6.Fs.Runs

/-!
# Looking up changes nothing

Looking at inodes and following names writes no block and logs none, as long as
every inode without links is in use: only the inode cache changes.
-/

namespace Xv6

open Hoare Table

variable {g : View} {s t u : Fs} {k : Fin NINODE} {i : Nat}

def OnlyCache (s t : Fs) : Prop := ∃ c, t = { s with icache := c }

theorem OnlyCache.refl (s : Fs) : OnlyCache s s := ⟨s.icache, rfl⟩

theorem OnlyCache.trans (h : OnlyCache s t) (h' : OnlyCache t u) : OnlyCache s u := by
  obtain ⟨c, rfl⟩ := h
  obtain ⟨c', rfl⟩ := h'
  exact ⟨c', rfl⟩

theorem onlyCache_setInode (s : Fs) (k : Fin NINODE) (f : Inode → Inode) :
    OnlyCache s (s.setInode k f) := ⟨_, rfl⟩

theorem OnlyCache.blk (h : OnlyCache s t) : t.blk = s.blk := by
  obtain ⟨c, rfl⟩ := h
  rfl

theorem OnlyCache.sb (h : OnlyCache s t) : t.sb = s.sb := by
  obtain ⟨c, rfl⟩ := h
  rfl

theorem OnlyCache.log (h : OnlyCache s t) : t.log = s.log := by
  obtain ⟨c, rfl⟩ := h
  rfl

/-- The program changes the inode cache only. -/
abbrev Calm {α : Type} (m : Kern α) (s : Fs) : Prop :=
  Wp m s (fun _ t => OnlyCache s t) Stop.notTooBig

theorem Calm.seq {α β : Type} {m : Kern α} {f : α → Kern β} {Q : α → Fs → Prop} {E : Stop → Prop}
    (h : Calm m s) (hq : Wp m s Q E) (hf : ∀ a t, Q a t → Calm (f a) t) : Calm (m >>= f) s := by
  refine (h.and hq).bind ?_ fun _ he => he.1
  rintro a t ⟨ht, hat⟩
  exact (hf a t hat).imp fun _ u hu => ht.trans hu

/-! ## Inodes -/

theorem iget_calm (dev i : Nat) : Calm (iget dev i) s := by
  unfold Calm iget
  rw [wp_bind, wp_get]
  split
  · simp only [wp_bind, wp_setInode, wp_pure]
    exact onlyCache_setInode _ _ _
  · split
    · simp only [wp_bind, wp_setInode, wp_pure]
      exact onlyCache_setInode _ _ _
    · exact wp_panic.mpr (by intro h; cases h)

theorem idup_calm (k : Fin NINODE) : Calm (idup k) s := by
  unfold Calm idup
  simp only [wp_bind, wp_setInode, wp_pure]
  exact onlyCache_setInode _ _ _

theorem acquiresleep_calm (k : Fin NINODE) : Calm (acquiresleep k) s := by
  unfold Calm acquiresleep
  simp only [wp_bind, wp_get]
  refine wp_ite (fun _ => wp_throw.mpr (by intro h; cases h)) fun _ => ?_
  rw [wp_setInode]
  exact onlyCache_setInode _ _ _

theorem ilock_calm (k : Fin NINODE) : Calm (ilock k) s := by
  unfold Calm ilock
  simp only [wp_bind, wp_inode]
  refine wp_ite (fun _ => wp_panic.mpr (by intro h; cases h)) fun _ => ?_
  refine (acquiresleep_calm k).bind (fun _ t ht => ?_) fun _ he => he
  simp only [wp_bind, wp_inode]
  refine wp_ite (fun _ => wp_pure.mpr ht) fun _ => ?_
  simp only [wp_bind, wp_get, wp_setInode]
  refine wp_ite (fun _ => wp_panic.mpr (by intro h; cases h)) fun _ => wp_pure.mpr ?_
  exact ht.trans (onlyCache_setInode _ _ _)

theorem iunlock_calm (k : Fin NINODE) : Calm (iunlock k) s := by
  unfold Calm iunlock
  simp only [wp_bind, wp_get]
  refine wp_ite (fun _ => wp_panic.mpr (by intro h; cases h)) fun _ => ?_
  rw [wp_releasesleep]
  exact onlyCache_setInode _ _ _

theorem iput_calm (h : Inv g s) {r : List (Fin NINODE × Nat)} (hp : g.refs.Perm ((k, i) :: r))
    (hkeep : (g.node i).type ≠ 0 → (g.node i).nlink = 0 → { g with refs := r }.Uses i) :
    Calm (iput k) s := by
  have hk : g.At k i := .inl (hp.mem_iff.mpr List.mem_cons_self)
  unfold Calm iput acquiresleep
  simp only [wp_bind, wp_get]
  refine wp_ite (fun _ => wp_throw.mpr (by intro h; cases h)) fun _ => ?_
  simp only [wp_setInode, wp_inode, wp_releasesleep, Fs.icache_setInode, upd_same]
  have hend : OnlyCache s (((s.setInode k fun ip => { ip with lock := some s.cur }).setInode k
      fun ip => { ip with lock := none }).setInode k fun ip => { ip with ref := ip.ref - 1 }) :=
    ((onlyCache_setInode s k _).trans (onlyCache_setInode _ k _)).trans (onlyCache_setInode _ k _)
  refine wp_ite (fun hc => ?_) fun _ => wp_pure.mpr hend
  simp only [wp_bind, wp_inode, Fs.icache_setInode, upd_same]
  refine wp_ite (fun h1 => ?_) fun _ => wp_pure.mpr hend
  obtain ⟨hv, hn⟩ := hc
  have hd := h.cache.coherent k (h.ref_pos hk) hv
  have hty := h.cache.loaded k (h.ref_pos hk) hv
  have hlt := h.inum_lt (h.ref_pos hk)
  rw [h.inum_eq hk] at hd hlt hty
  rw [hd] at hn
  refine absurd (hkeep hty ?_) ((h.ref_one_iff hp).mp h1)
  rw [h.disk.node_eq i hlt]
  exact hn

theorem iunlockput_calm (h : Inv g s) {r : List (Fin NINODE × Nat)}
    (hp : g.refs.Perm ((k, i) :: r)) (hl : k ∈ g.locks)
    (hkeep : (g.node i).type ≠ 0 → (g.node i).nlink = 0 → { g with refs := r }.Uses i) :
    Calm (iunlockput k) s :=
  (iunlock_calm k).seq (iunlock_spec h hl (fun _ => True)) fun _ _ ht => iput_calm ht.1 hp hkeep

/-! ## Names -/

theorem dirlookupFrom_calm (h : Inv g s) (hk : k ∈ g.locks) (hat : g.At k i)
    (hdir : (g.node i).type = T_DIR) (name : List UInt8) :
    ∀ (fuel e : Nat), Calm (dirlookupFrom k name fuel (DESIZE * e)) s
  | 0, _ => wp_pure.mpr (.refl s)
  | fuel + 1, e => by
    unfold Calm dirlookupFrom
    simp only [wp_bind, wp_inode]
    rw [h.dir_size hk hat]
    refine wp_ite (fun hlt => ?_) fun _ => wp_pure.mpr (.refl s)
    rw [wp_bind]
    refine (readEnt_spec h hk hat hdir hlt _).imp ?_
    rintro ⟨r, bs⟩ t ⟨hts, -⟩
    rw [hts]
    refine wp_ite (fun _ => wp_panic.mpr (by intro h; cases h)) fun _ => wp_ite (fun _ => ?_) fun _ => ?_
    · exact (iget_calm _ _).bind (fun _ u hu => wp_pure.mpr hu) fun _ he => he
    · exact dirlookupFrom_calm h hk hat hdir name fuel (e + 1)

theorem dirlookup_calm (h : Inv g s) (hk : k ∈ g.locks) (hat : g.At k i)
    (hdir : (g.node i).type = T_DIR) (name : List UInt8) : Calm (dirlookup k name) s := by
  unfold Calm dirlookup
  simp only [wp_bind, wp_inode]
  refine wp_ite (fun _ => wp_panic.mpr (by intro h; cases h)) fun _ => ?_
  exact dirlookupFrom_calm h hk hat hdir name _ 0

theorem namexFrom_calm (hop : g.op = true) (hlk : g.locks = ∅) (hset : g.Settled) (parent : Bool) :
    ∀ (fuel : Nat) (s : Fs) (k : Fin NINODE) (i : Nat) (path name : List UInt8),
    Inv { g with refs := (k, i) :: g.refs } s → Calm (namexFrom parent fuel k path name) s
  | 0, s, _, _, _, _, _ => wp_pure.mpr (.refl s)
  | fuel + 1, s, k, i, path, name, h => by
    have hk : k ∉ g.locks := by simp [hlk]
    have hat : View.At { g with refs := (k, i) :: g.refs } k i := .inl List.mem_cons_self
    have hi := (h.at_lt hat).2
    unfold Calm namexFrom
    split
    next =>
      refine wp_ite (fun _ => ?_) fun _ => wp_pure.mpr (.refl s)
      refine (iput_calm h (List.Perm.refl _) fun hty h0 => hset i hi hty h0).bind
        (fun _ t ht => wp_pure.mpr ht) fun _ he => he
    next rest x hs =>
      have hl : k ∈ insert k g.locks := Finset.mem_insert_self _ _
      have herase : (insert k g.locks).erase k = g.locks := Finset.erase_insert hk
      refine (ilock_calm k).seq (ilock_spec h hat hk) ?_
      rintro _ t ⟨ht, hty⟩
      unfold Calm
      have hdtype : (t.icache k).din.type = (g.node i).type := by
        rw [ht.din_type hl, ht.inum_eq hat]
      have hput : Calm (do iunlockput k; return none : Kern (Option (Fin NINODE × List UInt8))) t :=
        (iunlockput_calm ht (List.Perm.refl _) hl fun hty h0 => hset i hi hty h0).bind
          (fun _ _ hu => wp_pure.mpr hu) fun _ he => he
      simp only [wp_bind, wp_inode]
      rw [hdtype]
      refine wp_ite (fun _ => hput) fun hdir => wp_ite (fun _ => ?_) fun _ => ?_
      · exact (iunlock_calm k).bind (fun _ _ hu => wp_pure.mpr hu) fun _ he => he
      have hdir' := not_not.mp hdir
      refine (dirlookup_calm ht hl hat hdir' x).seq (dirlookup_spec ht hl hat hdir' x) ?_
      rintro (_ | ⟨next, off⟩) u
      · rintro ⟨hu, -⟩
        rw [hu]
        exact hput
      · rintro ⟨e, -, -, hu⟩
        dsimp only at hu ⊢
        have hkeep : (g.node i).nlink = 0 → View.Uses { g with
            refs := (next, ((g.node i).ent e).inum) :: g.refs } i := fun h0 =>
          View.Uses.mono (r := g.refs) (fun _ => List.mem_cons_of_mem _) (hset i hi hty h0)
        refine (iunlockput_calm hu (List.Perm.swap _ _ _) hl fun _ => hkeep).seq
          (iunlockput_spec hu hop (List.Perm.swap _ _ _) hl) fun _ v hv => ?_
        dsimp only at hv
        have hdrop : View.drop { g with
            refs := (next, ((g.node i).ent e).inum) :: (k, i) :: g.refs
            locks := insert k g.locks } i ((next, ((g.node i).ent e).inum) :: g.refs) = g.node :=
          View.drop_keep hkeep
        rw [herase, hdrop] at hv
        exact namexFrom_calm hop hlk hset parent fuel v next _ rest x hv

section

variable (h : Inv g s) (hrun : g.Running) (hop : g.op = true) (hlk : g.locks = ∅) (hset : g.Settled) (path : List UInt8)

include h hrun hop hlk hset path

theorem namex_calm (parent : Bool) : Calm (namex path parent) s := by
  unfold Calm namex
  by_cases hp : path.head? = some slash
  · simp only [if_pos hp]
    refine (iget_calm _ _).seq (iget_spec h ⟨Nat.one_pos, h.geom.root_lt⟩) fun k t ht => ?_
    exact namexFrom_calm hop hlk hset parent _ t k _ path [] ht
  · simp only [if_neg hp, wp_bind, wp_myproc]
    have hcwd : (s.proc s.cur).cwd = (g.user.proc g.cur).cwd := by rw [← h.user, h.cur]; rfl
    rw [hcwd]
    refine ((idup_calm _).and (idup_spec h hrun.at_cwd (fun _ => True))).mono ?_ fun _ he => he.1
    rintro k t ⟨htc, rfl, ht⟩
    exact (namexFrom_calm hop hlk hset parent _ t _ _ path [] ht).imp fun _ _ hu => htc.trans hu

theorem namei_calm : Calm (namei path) s := by
  unfold Calm namei
  exact (namex_calm h hrun hop hlk hset path false).bind (fun _ _ ht => wp_pure.mpr ht) fun _ he => he

theorem nameiparent_calm : Calm (nameiparent path) s :=
  namex_calm h hrun hop hlk hset path true

end

end Xv6
