import Xv6.Fs.Inv

/-!
# What the inode cache does

One statement for each function on cache entries: `iget`, `idup`, `ilock`,
`iunlock`, and the functions that open and close a transaction. Each is an
update of one entry, and the lemmas on `CacheInv` say what such an update does to
the view.
-/

namespace Xv6

open Hoare Table Scan

variable {g : View} {s : Fs} {c : Fin NINODE → Inode} {I : Nat → Dinode} {k : Fin NINODE} {i : Nat}

/-! ## Counting -/

theorem countRefs_cons (refs : List (Fin NINODE × Nat)) (k : Fin NINODE) (i : Nat) (l : Fin NINODE) :
    countRefs ((k, i) :: refs) l = countRefs refs l + if l = k then 1 else 0 := by
  unfold countRefs
  rw [List.countP_cons]
  by_cases h : l = k
  · simp [h]
  · have h' : ¬ k = l := fun he => h he.symm
    simp [h, h']

theorem countRefs_perm {refs refs' : List (Fin NINODE × Nat)} (h : refs.Perm refs')
    (k : Fin NINODE) : countRefs refs k = countRefs refs' k := h.countP_eq _

theorem User.holds_of_open {u : User} {f : Fin NFILE} (h : (u.ftable f).OpenOn k) : 0 < u.holds k := by
  have : 0 < (Finset.univ.filter fun f => (u.ftable f).OpenOn k).card :=
    Finset.card_pos.mpr ⟨f, by simp [h]⟩
  unfold User.holds
  omega

theorem User.holds_of_cwd {u : User} {p : Fin NPROC} (h : (u.proc p).CwdIs k) : 0 < u.holds k := by
  have : 0 < (Finset.univ.filter fun p => (u.proc p).CwdIs k).card :=
    Finset.card_pos.mpr ⟨p, by simp [h]⟩
  unfold User.holds
  omega

/-! ## Updating one entry -/

namespace CacheInv

theorem not_held (h : CacheInv g c I) (h0 : (c k).ref = 0) :
    g.owner.holds k = 0 ∧ countRefs g.refs k = 0 := by
  have := h.ref_eq k
  omega

theorem notMem_refs (h : CacheInv g c I) (h0 : (c k).ref = 0) {j : Fin NINODE × Nat}
    (hj : j ∈ g.refs) : j.1 ≠ k := by
  rintro rfl
  have := (h.not_held h0).2
  have := countRefs_pos (k := j.1) (i := j.2) hj
  omega

theorem notMem_locks (h : CacheInv g c I) (h0 : (c k).ref = 0) : k ∉ g.locks := by
  intro hk
  have := (h.locked k hk).1
  omega

variable {refs : List (Fin NINODE × Nat)}

/-- An update that gives no entry another inode. The nodes may change too, as
long as the entries in use keep their types. -/
theorem update (h : CacheInv g c I) {c' : Fin NINODE → Inode} {I' : Nat → Dinode}
    {node : Nat → Node} {locks : Finset (Fin NINODE)} {op : Bool} (hid : ∀ l, 0 < (c' l).ref →
      0 < (c l).ref ∧ (c' l).dev = (c l).dev ∧ (c' l).inum = (c l).inum)
    (hload : ∀ l, 0 < (c' l).ref → (c' l).valid = true →
      (c' l).din = I' (c l).inum ∧ (node (c l).inum).type ≠ 0)
    (hnode : ∀ l, 0 < (c l).ref → 0 < (c' l).ref → (node (c l).inum).type = (g.node (c l).inum).type ∧
      ((c l).valid = true → (c' l).valid = true) ∧
      ((node (c l).inum).nlink = 0 → (g.node (c l).inum).nlink = 0 ∨ (c' l).valid = true))
    (href : ∀ l, (c' l).ref = g.owner.holds l + countRefs refs l)
    (hhandle : ∀ j ∈ refs, (c' j.1).inum = j.2)
    (hlock : ∀ l, (c' l).lock = if l ∈ locks then some g.cur else none)
    (hlocked : ∀ l ∈ locks, 0 < (c' l).ref ∧ (c' l).valid = true) :
    CacheInv { g with node := node, refs := refs, locks := locks, op := op } c' I' := by
  have hheld : ∀ l, 0 < g.owner.holds l → 0 < (c' l).ref := fun l hl => by
    rw [href]
    omega
  constructor
  case slot =>
    intro l hl
    obtain ⟨h1, h2, h3⟩ := hid l hl
    rw [h2, h3]
    exact h.slot l h1
  case unique =>
    intro l m hl hm he
    obtain ⟨h1, _, h3⟩ := hid l hl
    obtain ⟨h4, _, h6⟩ := hid m hm
    exact h.unique l m h1 h4 (by rw [← h3, ← h6, he])
  case coherent => exact fun l hl hv => by rw [(hid l hl).2.2]; exact (hload l hl hv).1
  case loaded => exact fun l hl hv => by rw [(hid l hl).2.2]; exact (hload l hl hv).2
  case ref_eq => exact href
  case handle => exact hhandle
  case lock_eq => exact hlock
  case locked => exact hlocked
  case held =>
    intro l hl
    obtain ⟨h1, _, h3⟩ := hid l (hheld l hl)
    obtain ⟨ht, hv, hn⟩ := hnode l h1 (hheld l hl)
    obtain ⟨he, hty, hva⟩ := h.held l hl
    rw [he] at ht hn h3
    exact ⟨h3, by rw [ht]; exact hty, fun h0 => (hn h0).elim (fun h5 => hv (hva h5)) id⟩
  case writers =>
    intro f h1 h2 h3
    have hl := User.holds_of_open (u := g.owner) (f := f) ⟨h1, h2, rfl⟩
    have ht := (hnode _ (hid _ (hheld _ hl)).1 (hheld _ hl)).1
    rw [(h.held _ hl).1] at ht
    rw [ht]
    exact h.writers f h1 h2 h3

theorem update_one (h : CacheInv g c I) {ip : Inode}
    {locks : Finset (Fin NINODE)} {op : Bool} (hk : 0 < (c k).ref) (hdev : ip.dev = (c k).dev)
    (hinum : ip.inum = (c k).inum)
    (hvalid : ip.valid = true → ip.din = I ip.inum ∧ (g.node ip.inum).type ≠ 0)
    (hkeep : (c k).valid = true → ip.valid = true) (href : ip.ref = g.owner.holds k + countRefs refs k)
    (hcount : ∀ l, l ≠ k → countRefs refs l = countRefs g.refs l) (hhandle : ∀ j ∈ refs, (c j.1).inum = j.2)
    (hlock : ip.lock = if k ∈ locks then some g.cur else none)
    (hlocks : ∀ l, l ≠ k → (l ∈ locks ↔ l ∈ g.locks)) (hlocked : k ∈ locks → 0 < ip.ref ∧ ip.valid = true) :
    CacheInv { g with refs := refs, locks := locks, op := op } (upd c k ip) I := by
  refine h.update (fun l hl => ?_) (fun l hl hv => ?_) (fun l h1 h2 => ⟨rfl, fun hv => ?_, .inl⟩)
    (fun l => ?_) (fun j hj => ?_) (fun l => ?_) (fun l hl => ?_)
  · by_cases he : l = k
    · subst he
      rw [upd_same]
      exact ⟨hk, hdev, hinum⟩
    · rw [upd_ne _ _ he] at hl ⊢
      exact ⟨hl, rfl, rfl⟩
  · by_cases he : l = k
    · subst he
      rw [upd_same] at hv ⊢
      rw [← hinum]
      exact hvalid hv
    · rw [upd_ne _ _ he] at hl hv ⊢
      exact ⟨h.coherent l hl hv, h.loaded l hl hv⟩
  · by_cases he : l = k
    · subst he
      rw [upd_same]
      exact hkeep hv
    · rwa [upd_ne _ _ he]
  · by_cases he : l = k
    · subst he
      rw [upd_same, href]
    · rw [upd_ne _ _ he, hcount l he, h.ref_eq]
  · have hj := hhandle j hj
    by_cases he : j.1 = k
    · rw [he] at hj ⊢
      rw [upd_same, hinum, hj]
    · rw [upd_ne _ _ he, hj]
  · by_cases he : l = k
    · subst he
      rw [upd_same, hlock]
    · rw [upd_ne _ _ he, h.lock_eq]
      simp only [hlocks l he]
  · by_cases he : l = k
    · subst he
      rw [upd_same]
      exact hlocked hl
    · rw [upd_ne _ _ he]
      exact h.locked l ((hlocks l he).mp hl)

theorem incr (h : CacheInv g c I) (hk : 0 < (c k).ref) :
    CacheInv { g with refs := (k, (c k).inum) :: g.refs }
      (upd c k { c k with ref := (c k).ref + 1 }) I := by
  refine h.update_one hk rfl rfl (fun hv => ⟨h.coherent k hk hv, h.loaded k hk hv⟩) id ?_
    (fun l hl => ?_) (fun j hj => ?_) (h.lock_eq k) (fun _ _ => Iff.rfl)
    (fun hl => ⟨Nat.succ_pos _, (h.locked k hl).2⟩)
  · rw [countRefs_cons, if_pos rfl, ← Nat.add_assoc, ← h.ref_eq]
  · rw [countRefs_cons, if_neg hl, Nat.add_zero]
  · rcases List.mem_cons.mp hj with rfl | hj
    · rfl
    · exact h.handle j hj

theorem decr (h : CacheInv g c I) (hp : g.refs.Perm ((k, i) :: refs)) (hk : k ∉ g.locks) :
    CacheInv { g with refs := refs } (upd c k { c k with ref := (c k).ref - 1 }) I := by
  have hcount : ∀ l, countRefs g.refs l = countRefs refs l + if l = k then 1 else 0 :=
    fun l => by rw [countRefs_perm hp, countRefs_cons]
  have href := h.ref_eq k
  rw [hcount k, if_pos rfl] at href
  refine h.update_one (by omega) rfl rfl
    (fun hv => ⟨h.coherent k (by omega) hv, h.loaded k (by omega) hv⟩) id ?_
    (fun l hl => ?_) (fun j hj => ?_) (h.lock_eq k) (fun _ _ => Iff.rfl) (fun hl => absurd hl hk)
  · change (c k).ref - 1 = _
    omega
  · rw [hcount l, if_neg hl, Nat.add_zero]
  · exact h.handle j (hp.mem_iff.mpr (List.mem_cons_of_mem _ hj))

theorem lock (h : CacheInv g c I) (hk : 0 < (c k).ref) (hd : (g.node (c k).inum).type ≠ 0) :
    CacheInv { g with locks := insert k g.locks }
      (upd c k { c k with lock := some g.cur, valid := true, din := I (c k).inum }) I :=
  h.update_one hk rfl rfl (fun _ => ⟨rfl, hd⟩) (fun _ => rfl) (h.ref_eq k) (fun _ _ => rfl)
    h.handle (by simp) (fun l hl => by simp [hl]) (fun _ => ⟨hk, rfl⟩)

theorem unlock (h : CacheInv g c I) (hk : k ∈ g.locks) :
    CacheInv { g with locks := g.locks.erase k } (upd c k { c k with lock := none }) I := by
  have hl := h.locked k hk
  exact h.update_one hl.1 rfl rfl (fun hv => ⟨h.coherent k hl.1 hv, h.loaded k hl.1 hv⟩) id
    (h.ref_eq k) (fun _ _ => rfl) h.handle (by simp) (fun l hl => by simp [hl])
    (fun hc => absurd hc (Finset.notMem_erase _ _))

theorem fill (h : CacheInv g c I) (h0 : (c k).ref = 0) (hi : 0 < i ∧ i < g.sb.ninodes)
    (hnew : ∀ l, 0 < (c l).ref → (c l).inum ≠ i) : CacheInv { g with refs := (k, i) :: g.refs }
      (upd c k { c k with dev := ROOTDEV, inum := i, ref := 1, valid := false }) I := by
  have hh := h.not_held h0
  constructor
  case slot =>
    intro l hl
    by_cases he : l = k
    · subst he
      rw [upd_same]
      exact ⟨rfl, hi⟩
    · rw [upd_ne _ _ he] at hl ⊢
      exact h.slot l hl
  case unique =>
    intro l m hl hm heq
    by_cases h1 : l = k <;> by_cases h2 : m = k
    · rw [h1, h2]
    · subst h1
      rw [upd_same, upd_ne _ _ h2] at heq
      rw [upd_ne _ _ h2] at hm
      exact absurd heq.symm (hnew m hm)
    · subst h2
      rw [upd_same, upd_ne _ _ h1] at heq
      rw [upd_ne _ _ h1] at hl
      exact absurd heq (hnew l hl)
    · rw [upd_ne _ _ h1] at heq hl
      rw [upd_ne _ _ h2] at heq hm
      exact h.unique l m hl hm heq
  case coherent =>
    intro l hl hv
    by_cases he : l = k
    · subst he
      rw [upd_same] at hv
      cases hv
    · rw [upd_ne _ _ he] at hl hv ⊢
      exact h.coherent l hl hv
  case loaded =>
    intro l hl hv
    by_cases he : l = k
    · subst he
      rw [upd_same] at hv
      cases hv
    · rw [upd_ne _ _ he] at hl hv ⊢
      exact h.loaded l hl hv
  case ref_eq =>
    intro l
    rw [countRefs_cons]
    by_cases he : l = k
    · subst he
      rw [upd_same, if_pos rfl, hh.2]
      change 1 = g.owner.holds l + (0 + 1)
      rw [hh.1]
    · rw [upd_ne _ _ he, if_neg he, Nat.add_zero]
      exact h.ref_eq l
  case handle =>
    intro j hj
    rcases List.mem_cons.mp hj with rfl | hj
    · rw [upd_same]
    · rw [upd_ne _ _ (h.notMem_refs h0 hj)]
      exact h.handle j hj
  case lock_eq =>
    intro l
    by_cases he : l = k
    · subst he
      rw [upd_same]
      exact h.lock_eq l
    · rw [upd_ne _ _ he]
      exact h.lock_eq l
  case locked =>
    intro l hl
    have he : l ≠ k := fun he => h.notMem_locks h0 (he ▸ hl)
    rw [upd_ne _ _ he]
    exact h.locked l hl
  case held =>
    intro l hl
    have he : l ≠ k := by
      rintro rfl
      exact absurd hh.1 (Nat.ne_of_gt hl)
    rw [upd_ne _ _ he]
    exact h.held l hl
  case writers => exact h.writers

end CacheInv

/-! ## The functions on cache entries -/

theorem Inv.withCache (h : Inv g s) {g' : View} {t : Fs} (hsb : g'.sb = g.sb)
    (hcur : g'.cur = g.cur) (hu : g'.user = g.user) (hn : g'.node = g.node) (hop : g'.op = g.op) (hf : Frame s t)
    (hblk : t.blk = s.blk) (hlog : t.log = s.log) (hc : CacheInv g' t.icache s.dinode) : Inv g' t := by
  have hd : t.dinode = s.dinode := by
    funext j
    unfold Fs.dinode
    rw [hf.sb, hblk]
  refine ⟨by rw [hf.sb, hsb, h.sb], by rw [hsb]; exact h.geom, by rw [hf.cur, hcur, h.cur],
    ?_, ?_, ?_, ?_⟩
  · rw [hu, ← h.user]
    unfold Fs.user
    rw [hf.ftable, hf.proc]
  · rw [hsb, hn, hblk, hd]
    exact h.disk
  · rw [hd]
    exact hc
  · rw [hop, hlog]
    exact h.log

theorem iget_spec (h : Inv g s) (hi : 0 < i ∧ i < g.sb.ninodes) :
    Wp (iget ROOTDEV i) s (fun k t => Inv { g with refs := (k, i) :: g.refs } t) Stop.scarce := by
  unfold iget
  rw [wp_bind, wp_get]
  split
  next k hk =>
    have hp := firstFin_some hk
    rw [decide_eq_true_iff] at hp
    obtain ⟨hpos, -, rfl⟩ := hp
    unfold setInode
    simp only [wp_bind, wp_modify, wp_pure]
    exact h.withCache rfl rfl rfl rfl rfl (frame_setInode _ _ _) rfl rfl (h.cache.incr hpos)
  next hnone =>
    split
    next k hk =>
      have h0 := firstFin_some hk
      rw [decide_eq_true_iff] at h0
      unfold setInode
      simp only [wp_bind, wp_modify, wp_pure]
      refine h.withCache rfl rfl rfl rfl rfl (frame_setInode _ _ _) rfl rfl
        (h.cache.fill h0 hi fun l hl he => ?_)
      have := firstFin_none hnone l
      rw [decide_eq_false_iff_not] at this
      exact this ⟨hl, (h.cache.slot l hl).1, he⟩
    next => exact wp_panic.mpr trivial

theorem idup_spec (h : Inv g s) (hk : g.At k i) (E : Stop → Prop) :
    Wp (idup k) s (fun r t => r = k ∧ Inv { g with refs := (k, i) :: g.refs } t) E := by
  have hc := h.cache.incr (h.ref_pos hk)
  rw [h.inum_eq hk] at hc
  unfold idup
  simp only [wp_bind, wp_setInode, wp_pure]
  exact ⟨trivial, h.withCache rfl rfl rfl rfl rfl (frame_setInode _ _ _) rfl rfl hc⟩

theorem ilock_spec (h : Inv g s) (hat : g.At k i) (hl : k ∉ g.locks) :
    Wp (ilock k) s (fun _ t => Inv { g with locks := insert k g.locks } t ∧ (g.node i).type ≠ 0)
      fun e => e = .panic .noType ∧ (g.node i).type = 0 := by
  have hk := h.ref_pos hat
  have hdisk := h.disk.node_eq _ (h.inum_lt hk)
  rw [← h.inum_eq hat]
  unfold ilock inode acquiresleep setInode
  simp only [wp_bind, wp_get, wp_pure]
  refine wp_ite (fun h0 => by omega) fun _ => ?_
  rw [wp_bind, wp_bind, wp_get]
  refine wp_ite (fun h1 => ?_) fun _ => ?_
  · rw [h.lock_none hl] at h1
    cases h1
  simp only [wp_modify, wp_bind, wp_get, wp_pure, Fs.icache_setInode, upd_same]
  refine wp_ite (fun hv => ?_) fun hv => ?_
  · rw [wp_pure]
    have hc := h.cache.lock hk (h.cache.loaded k hk hv)
    rw [← h.cache.coherent k hk hv] at hc
    refine ⟨h.withCache rfl rfl rfl rfl rfl (frame_setInode _ _ _) rfl rfl ?_,
      h.cache.loaded k hk hv⟩
    rw [Fs.icache_setInode, h.cur]
    have he : { s.icache k with lock := some g.cur } =
        { s.icache k with lock := some g.cur, valid := true, din := (s.icache k).din } := by
      rw [← hv]
    rw [he]
    exact hc
  · have hd : (s.setInode k fun ip => { ip with lock := some s.cur }).dinode = s.dinode := rfl
    simp only [wp_bind, wp_get, wp_modify, Fs.icache_setInode, upd_same, hd]
    refine wp_ite (fun h0 => wp_panic.mpr ⟨rfl, ?_⟩) fun h0 => wp_pure.mpr ?_
    · rw [hdisk]
      exact h0
    · have hty : (g.node (s.icache k).inum).type ≠ 0 := by
        rw [hdisk]
        exact h0
      have hc := h.cache.lock hk hty
      refine ⟨h.withCache rfl rfl rfl rfl rfl
        ((frame_setInode s k _).trans (frame_setInode _ k _)) rfl rfl ?_, hty⟩
      rw [Fs.icache_setInode, Fs.icache_setInode, upd_upd, upd_same, h.cur]
      exact hc

theorem ilock_asleep (h : Inv g s) (hl : k ∈ g.locks) {Q : Unit → Fs → Prop} :
    Wp (ilock k) s Q fun e => e = .asleep := by
  have hk := (h.cache.locked k hl).1
  unfold ilock inode acquiresleep setInode
  simp only [wp_bind, wp_get, wp_pure]
  refine wp_ite (fun h0 => by omega) fun _ => ?_
  rw [wp_bind, wp_bind, wp_get]
  refine wp_ite (fun _ => wp_throw.mpr rfl) fun h1 => ?_
  rw [h.cache.lock_eq, if_pos hl] at h1
  exact absurd rfl h1

theorem iunlock_spec (h : Inv g s) (hl : k ∈ g.locks) (E : Stop → Prop) :
    Wp (iunlock k) s (fun _ t => Inv { g with locks := g.locks.erase k } t ∧
      t.blk = s.blk ∧ t.icache = upd s.icache k { s.icache k with lock := none }) E := by
  unfold iunlock releasesleep setInode
  rw [wp_bind, wp_get]
  refine wp_ite (fun h0 => ?_) fun _ => wp_modify.mpr
    ⟨h.withCache rfl rfl rfl rfl rfl (frame_setInode _ _ _) rfl rfl (h.cache.unlock hl), rfl, rfl⟩
  rcases h0 with h0 | h0
  · unfold Fs.holdingsleep at h0
    rw [h.cache.lock_eq, if_pos hl, h.cur, beq_self_eq_true] at h0
    cases h0
  · have := (h.cache.locked k hl).1
    omega

/-! ## Transactions -/

theorem Inv.withLog (h : Inv g s) {op : Bool} {lg : Log} (hlog : LogIdle op lg) :
    Inv { g with op := op } { s with log := lg } :=
  ⟨h.sb, h.geom, h.cur, h.user, h.disk, ⟨h.cache.slot, h.cache.unique, h.cache.coherent, h.cache.loaded,
    h.cache.ref_eq, h.cache.handle, h.cache.lock_eq, h.cache.locked, h.cache.held,
    h.cache.writers⟩, hlog⟩

theorem beginOp_spec (h : Inv g s) (hop : g.op = false) (E : Stop → Prop) :
    Wp beginOp s (fun _ t => Inv { g with op := true } t ∧ t.icache = s.icache) E := by
  obtain ⟨h0, hn⟩ := h.log.idle hop
  unfold beginOp
  rw [wp_bind, wp_get]
  refine wp_ite (fun hc => ?_) fun hc => wp_ite (fun hf => ?_) fun _ => wp_set.mpr ?_
  · rw [h.log.committing] at hc
    cases hc
  · unfold Log.full at hf
    rw [h0, hn] at hf
    simp only [MAXOPBLOCKS, LOGSIZE] at hf
    omega
  · refine ⟨h.withLog ⟨h.log.committing, (fun hf => by cases hf), fun _ => ?_⟩, rfl⟩
    change s.log.outstanding + 1 = 1
    rw [h0]
    rfl

theorem endOp_spec (h : Inv g s) (hop : g.op = true) (E : Stop → Prop) :
    Wp endOp s (fun _ t => Inv { g with op := false } t ∧ t.icache = s.icache) E := by
  have h1 := h.log.inOp hop
  unfold endOp
  rw [wp_bind, wp_get]
  refine wp_ite (fun hc => ?_) fun hc => wp_ite (fun hz => wp_set.mpr ?_) fun hz => ?_
  · change s.log.committing = true at hc
    rw [h.log.committing] at hc
    cases hc
  · exact ⟨h.withLog ⟨h.log.committing, fun _ => ⟨hz, rfl⟩, fun hf => by cases hf⟩, rfl⟩
  · change ¬ s.log.outstanding - 1 = 0 at hz
    omega

end Xv6
