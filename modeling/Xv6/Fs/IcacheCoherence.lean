import Xv6.Fs.Icache

/-!
# The inode cache is coherent

The cache and the disk together stand for a table of inodes: what a user finds
under the lock is what was last written to the inode. The cache is write-through,
so an entry that is valid and not locked agrees with the disk.

The rule the code keeps is that every change in memory is followed by `iupdate`
before the lock is released. `readi`, and `writei` below the size, have no
`iupdate`: they keep the rule because they find every block mapped. In a file with
a hole `bmap` assigns to `addrs`, and the disk does not learn of it.
-/

namespace Xv6.Icache

open Table Scan Trans

variable {H : Type} {s t : Sys H} {A : Inodes}

/-! ## The invariant -/

def Stage.Locked (g : Stage) : Prop := g ≠ .counted ∧ g ≠ .dropping

instance (g : Stage) : Decidable g.Locked := inferInstanceAs (Decidable (_ ∧ _))

/-- The user has found the entry valid. -/
def Stage.Loaded (g : Stage) : Prop :=
  g = .locked ∨ g = .changed ∨ g = .freeing ∨ g = .truncated ∨ g = .trimmed ∨ g = .cleared ∨ g = .freed

/-- The memory is ahead of the disk. -/
def Stage.Pending (g : Stage) : Prop := g = .changed ∨ g = .truncated ∨ g = .cleared

theorem Stage.Pending.locked {g : Stage} (h : g.Pending) : g.Locked := by
  rcases h with rfl | rfl | rfl <;> decide

theorem Stage.Loaded.locked {g : Stage} (h : g.Loaded) : g.Locked := by
  rcases h with rfl | rfl | rfl | rfl | rfl | rfl | rfl <;> decide

/-- The handle uses the entry `b`. -/
def Uses (b : Fin NINODE) (u : Option Use) : Prop := u.map Use.ent = some b

instance (b : Fin NINODE) : DecidablePred (Uses b) := fun _ => inferInstanceAs (Decidable (_ = _))

/-- The copy in memory is that of the table, and the inode is in use on disk. -/
structure Fresh (g : Option Stage) (p : Entry H) (disk A : Dinode) : Prop where
  din : p.din = A
  disk_type : disk.type ≠ 0
  type : g ≠ some .cleared → p.din.type ≠ 0

/-- The cache and the disk stand for the table `A`. -/
structure Coherent [Fintype H] (s : Sys H) (A : Inodes) : Prop where
  unique : ∀ b c, 0 < (s.ent b).ref → 0 < (s.ent c).ref → (s.ent b).key = (s.ent c).key → b = c
  count : ∀ b, (s.ent b).ref = (Finset.univ.filter fun h => Uses b (s.use h)).card
  lock : ∀ b h, (s.ent b).lock = some h ↔ ∃ u, s.use h = some u ∧ u.ent = b ∧ u.stage.Locked
  loaded : ∀ h u, s.use h = some u → u.stage.Loaded → (s.ent u.ent).valid = true
  idle : ∀ b, (s.ent b).valid = true → 0 < (s.ent b).ref → (s.ent b).lock = none →
    Fresh none (s.ent b) (s.dinode (s.ent b).key) (A (s.ent b).key)
  held : ∀ h u, s.use h = some u → u.stage.Locked → (s.ent u.ent).valid = true → u.stage ≠ .freed →
    Fresh (some u.stage) (s.ent u.ent) (s.dinode (s.ent u.ent).key) (A (s.ent u.ent).key)
  disk : ∀ k, (∀ h u, s.use h = some u → u.stage.Pending → (s.ent u.ent).key ≠ k) → s.dinode k = A k

/-! ## The disk -/

theorem dinode_store (s : Sys H) (k j : Key) (d : Dinode) :
    (s.store k d).dinode j = upd s.dinode k d j := by
  have hmod : k.2 % IPB < IPB := Nat.mod_lt _ (by decide)
  obtain ⟨dev, inum⟩ := k
  obtain ⟨dev', inum'⟩ := j
  by_cases hj : (dev', inum') = (dev, inum)
  · rw [hj, upd_same]
    simp only [Sys.dinode, Sys.store, upd_same]
    rw [Block.dinode_setDinode_same _ _ hmod]
  · rw [upd_ne _ _ hj]
    simp only [Sys.dinode, Sys.store]
    by_cases hdev : dev' = dev
    · subst hdev
      rw [upd_same]
      by_cases hb : s.sb.iblock inum' = s.sb.iblock inum
      · rw [hb, upd_same, Block.dinode_setDinode_ne]
        have hd : inum' / IPB = inum / IPB := Nat.add_right_cancel hb
        intro he
        exact hj (by rw [← Nat.div_add_mod inum' IPB, hd, he, Nat.div_add_mod])
      · rw [upd_ne _ _ hb]
    · rw [upd_ne _ _ hdev]

/-! ## A step of one user -/

section

variable [Fintype H]

variable {h : H} {u : Use}

theorem Coherent.pos (hs : Coherent s A) (hu : s.use h = some u) : 0 < (s.ent u.ent).ref := by
  rw [hs.count, Finset.card_pos]
  exact ⟨h, by simp [Uses, hu]⟩

theorem Coherent.one_holder (hs : Coherent s A) {k : H} {v : Use}
    (hv : s.use k = some v) (he : v.ent = u.ent)
    (hlock : (s.ent u.ent).lock = none ∨ (s.ent u.ent).lock = some h) (hl : v.stage.Locked) : k = h := by
  have hk := (hs.lock u.ent k).mpr ⟨v, hv, he, hl⟩
  rcases hlock with hn | hh
  · rw [hn] at hk
    cases hk
  · rw [hh] at hk
    exact (Option.some.inj hk).symm

theorem Coherent.disk_eq (hs : Coherent s A) (hu : s.use h = some u)
    (hlock : (s.ent u.ent).lock = none ∨ (s.ent u.ent).lock = some h) (hp : ¬ u.stage.Pending) :
    s.dinode (s.ent u.ent).key = A (s.ent u.ent).key := by
  refine hs.disk _ fun k v hv hvp he => ?_
  have hent := hs.unique _ _ (hs.pos hv) (hs.pos hu) he
  have hkh := hs.one_holder hv hent hlock hvp.locked
  subst hkh
  rw [hu] at hv
  cases hv
  exact hp hvp

theorem Coherent.lock_eq (hs : Coherent s A) (hu : s.use h = some u)
    (hl : u.stage.Locked) : (s.ent u.ent).lock = some h := (hs.lock u.ent h).mpr ⟨u, hu, rfl, hl⟩

theorem Coherent.ialloc (hs : Coherent s A) {k : Key} (hz : (s.dinode k).type = 0) (d : Dinode) :
    Coherent (s.store k d) (upd A k d) := by
  have hd : ∀ j, j ≠ k → (s.store k d).dinode j = s.dinode j := fun j hj => by
    rw [dinode_store, upd_ne _ _ hj]
  have hkeep : ∀ (g : Option Stage) (p : Entry H),
      Fresh g p (s.dinode p.key) (A p.key) →
      Fresh g p ((s.store k d).dinode p.key) (upd A k d p.key) := fun g p hf => by
    have hne : p.key ≠ k := fun he => hf.disk_type (by rw [he]; exact hz)
    rw [hd _ hne, upd_ne _ _ hne]
    exact hf
  refine ⟨hs.unique, hs.count, hs.lock, hs.loaded, fun b hv hr hl => hkeep _ _ (hs.idle b hv hr hl),
    fun h u hu hl hv hf => hkeep _ _ (hs.held h u hu hl hv hf), fun j hj => ?_⟩
  by_cases hjk : j = k
  · rw [hjk, dinode_store, upd_same, upd_same]
  · rw [hd j hjk, upd_ne _ _ hjk]
    exact hs.disk j hj

variable [DecidableEq H]

/-- What a step of the user `u` behind `h` to the stage `g` must ensure: its entry becomes
`q`, and of the disk and the table only its inode changes. -/
structure StageStep (s : Sys H) (A : Inodes) (h : H) (u : Use) (g : Stage) (q : Entry H)
    (t : Sys H) (A' : Inodes) : Prop where
  ent : t.ent = upd s.ent u.ent q
  use : t.use = upd s.use h (some { u with stage := g })
  key : q.key = (s.ent u.ent).key
  ref : q.ref = (s.ent u.ent).ref
  before : (s.ent u.ent).lock = none ∨ (s.ent u.ent).lock = some h
  lock : q.lock = if g.Locked then some h else none
  loaded : g.Loaded → q.valid = true
  fresh : q.valid = true → g ≠ .freed →
    Fresh (some g) q (t.dinode q.key) (A' q.key)
  other : ∀ k, k ≠ q.key → t.dinode k = s.dinode k ∧ A' k = A k
  disk : ¬ g.Pending → t.dinode q.key = A' q.key

variable {g : Stage}

section

variable (hs : Coherent s A) (hu : s.use h = some u)

include hs hu

theorem Coherent.stage
    {q : Entry H} {A' : Inodes} (hq : StageStep s A h u g q t A') : Coherent t A' := by
  have hpos := hs.pos hu
  have hself : t.ent u.ent = q := by rw [hq.ent, upd_same]
  have hne : ∀ b, b ≠ u.ent → t.ent b = s.ent b := fun b hb => by rw [hq.ent, upd_ne _ _ hb]
  have huse : t.use h = some { u with stage := g } := by rw [hq.use, upd_same]
  have hother : ∀ k, k ≠ h → t.use k = s.use k := fun k hk => by rw [hq.use, upd_ne _ _ hk]
  have hkey : ∀ b, (t.ent b).key = (s.ent b).key := fun b => by
    by_cases hb : b = u.ent
    · rw [hb, hself, hq.key]
    · rw [hne b hb]
  have href : ∀ b, (t.ent b).ref = (s.ent b).ref := fun b => by
    by_cases hb : b = u.ent
    · rw [hb, hself, hq.ref]
    · rw [hne b hb]
  -- another entry in use is for another inode
  have hkne : ∀ b, b ≠ u.ent → 0 < (s.ent b).ref → (s.ent b).key ≠ q.key := fun b hb hr he =>
    hb (hs.unique b u.ent hr hpos (he.trans hq.key))
  refine ⟨fun b c hb hc he => ?_, fun b => ?_, fun b k => ?_, fun k v hv hl => ?_,
    fun b hv hr hl => ?_, fun k v hv hl hval hf => ?_, fun k hk => ?_⟩
  · rw [href] at hb hc
    rw [hkey, hkey] at he
    exact hs.unique b c hb hc he
  · have hcard := card_filter_upd (Uses b) s.use h (some { u with stage := g })
    have hsame : Uses b (some { u with stage := g }) ↔ Uses b (s.use h) := by simp [Uses, hu]
    simp only [hsame] at hcard
    rw [href, hs.count b, hq.use]
    omega
  · by_cases hb : b = u.ent
    · subst hb
      rw [hself, hq.lock]
      constructor
      · intro hk
        split at hk
        · next hg =>
            cases hk
            exact ⟨_, huse, rfl, hg⟩
        · cases hk
      · rintro ⟨v, hv, he, hl⟩
        by_cases hkh : k = h
        · subst hkh
          rw [huse] at hv
          cases hv
          rw [if_pos hl]
        · rw [hother k hkh] at hv
          exact absurd (hs.one_holder hv he hq.before hl) hkh
    · rw [hne b hb, hs.lock b k]
      by_cases hkh : k = h
      · subst hkh
        constructor
        · rintro ⟨v, hv, he, -⟩
          rw [hu] at hv
          cases hv
          exact absurd he.symm hb
        · rintro ⟨v, hv, he, -⟩
          rw [huse] at hv
          cases hv
          exact absurd he.symm hb
      · rw [hother k hkh]
  · by_cases hkh : k = h
    · subst hkh
      rw [huse] at hv
      cases hv
      rw [hself]
      exact hq.loaded hl
    · rw [hother k hkh] at hv
      have hb : v.ent ≠ u.ent := fun he => hkh (hs.one_holder hv he hq.before hl.locked)
      rw [hne _ hb]
      exact hs.loaded k v hv hl
  · rw [href] at hr
    by_cases hb : b = u.ent
    · subst hb
      rw [hself] at hv hl ⊢
      rw [hq.lock] at hl
      have hg : ¬ g.Locked := fun hg => by rw [if_pos hg] at hl; cases hl
      have hf := hq.fresh hv (fun hf => hg (by rw [hf]; decide))
      exact ⟨hf.din, hf.disk_type, fun _ => hf.type fun hc => hg (by cases hc; decide)⟩
    · rw [hne b hb] at hv hl ⊢
      obtain ⟨hd, ha⟩ := hq.other _ (hkne b hb hr)
      rw [hd, ha]
      exact hs.idle b hv hr hl
  · by_cases hkh : k = h
    · subst hkh
      rw [huse] at hv
      cases hv
      rw [hself] at hval ⊢
      exact hq.fresh hval hf
    · rw [hother k hkh] at hv
      have hb : v.ent ≠ u.ent := fun he => hkh (hs.one_holder hv he hq.before hl)
      rw [hne _ hb] at hval ⊢
      obtain ⟨hd, ha⟩ := hq.other _ (hkne _ hb (hs.pos hv))
      rw [hd, ha]
      exact hs.held k v hv hl hval hf
  · by_cases hkq : k = q.key
    · subst hkq
      refine hq.disk fun hg => hk h _ huse hg ?_
      rw [hself]
    · obtain ⟨hd, ha⟩ := hq.other k hkq
      rw [hd, ha]
      refine hs.disk k fun k' v hv hp => ?_
      by_cases hkh : k' = h
      · subst hkh
        rw [hu] at hv
        cases hv
        rw [← hq.key]
        exact Ne.symm hkq
      · have := hk k' v (by rwa [hother k' hkh]) hp
        rwa [hkey] at this

/-! ## The steps of `ilock`, `iunlock` and `iput` -/

theorem acquire_coherent
    (hg : g = .acquired ∨ g = .putting) (hst : u.stage = .counted)
    (ht : acquire s h u g = some t) : Coherent t A := by
  unfold acquire at ht
  split at ht
  case isFalse => cases ht
  case isTrue hfree =>
    cases ht
    have hgl : g.Locked := by rcases hg with rfl | rfl <;> decide
    refine hs.stage hu (g := g) (q := { s.ent u.ent with lock := some h })
      ⟨rfl, rfl, rfl, rfl, .inl hfree, (if_pos hgl).symm, fun hl => ?_, fun hv _ => ?_,
        fun _ _ => ⟨rfl, rfl⟩, fun _ => ?_⟩
    · rcases hg with rfl | rfl <;> rcases hl with hl | hl | hl | hl | hl | hl | hl <;> cases hl
    · have hf := hs.idle u.ent hv (hs.pos hu) hfree
      exact ⟨hf.din, hf.disk_type, fun _ => hf.type (by rintro ⟨⟩)⟩
    · refine hs.disk_eq hu (.inl hfree) fun hp => ?_
      have hl := hp.locked
      rw [hst] at hl
      exact hl.1 rfl

theorem Coherent.move
    (hl : u.stage.Locked) (hp : ¬ u.stage.Pending) (hf : u.stage ≠ .freed) (hgl : g.Locked)
    (hload : g.Loaded → (s.ent u.ent).valid = true) (hcl : u.stage ≠ .cleared) :
    Coherent (s.setUse h (some { u with stage := g })) A := by
  refine hs.stage hu (g := g) (q := s.ent u.ent) ⟨?_, rfl, rfl, rfl, .inr (hs.lock_eq hu hl), ?_, hload,
    fun hv _ => ?_, fun _ _ => ⟨rfl, rfl⟩, fun _ => hs.disk_eq hu (.inr (hs.lock_eq hu hl)) hp⟩
  · rw [upd_eq_self]
    rfl
  · rw [hs.lock_eq hu hl, if_pos hgl]
  · have hfr := hs.held h u hu hl hv hf
    exact ⟨hfr.din, hfr.disk_type, fun _ => hfr.type fun hc => hcl (Option.some.inj hc)⟩

theorem load_coherent
    (hst : u.stage = .acquired) (ht : load s h u = some t) : Coherent t A := by
  have hl : u.stage.Locked := by rw [hst]; decide
  have hp : ¬ u.stage.Pending := by rw [hst]; rintro (hc | hc | hc) <;> cases hc
  have hlock := hs.lock_eq hu hl
  have hdisk := hs.disk_eq hu (.inr hlock) hp
  simp only [load] at ht
  split at ht
  case isTrue hv =>
    cases ht
    exact hs.move hu hl hp (by rw [hst]; rintro ⟨⟩) (by decide) (fun _ => hv) (by rw [hst]; rintro ⟨⟩)
  case isFalse =>
    split at ht
    case isTrue => cases ht
    case isFalse htype =>
      cases ht
      exact hs.stage hu (g := .locked)
        (q := { s.ent u.ent with din := s.dinode (s.ent u.ent).key, valid := true })
        ⟨rfl, rfl, rfl, rfl, .inr hlock, hlock, fun _ => rfl,
          fun _ _ => ⟨hdisk, htype, fun _ => htype⟩, fun _ _ => ⟨rfl, rfl⟩, fun _ => hdisk⟩

theorem unlock_coherent
    (hst : u.stage = .locked ∨ u.stage = .leaving) (hg : ¬ g.Locked) : Coherent (unlock s h u g) A := by
  have hl : u.stage.Locked := by rcases hst with hst | hst <;> rw [hst] <;> decide
  have hp : ¬ u.stage.Pending := by
    rcases hst with hst | hst <;> rw [hst] <;> rintro (hc | hc | hc) <;> cases hc
  have hlock := hs.lock_eq hu hl
  refine hs.stage hu (g := g) (q := { s.ent u.ent with lock := none })
    ⟨rfl, rfl, rfl, rfl, .inr hlock, (if_neg hg).symm, fun hgl => absurd hgl.locked hg,
      fun hv _ => ?_, fun _ _ => ⟨rfl, rfl⟩, fun _ => hs.disk_eq hu (.inr hlock) hp⟩
  have hfr := hs.held h u hu hl hv (by rcases hst with hst | hst <;> rw [hst] <;> rintro ⟨⟩)
  refine ⟨hfr.din, hfr.disk_type, fun _ => hfr.type fun hc => ?_⟩
  have hc := Option.some.inj hc
  rcases hst with hst | hst <;> rw [hst] at hc <;> cases hc

theorem invalidate_coherent
    (hst : u.stage = .freed) : Coherent (invalidate s h u) A := by
  have hl : u.stage.Locked := by rw [hst]; decide
  have hp : ¬ u.stage.Pending := by rw [hst]; rintro (hc | hc | hc) <;> cases hc
  have hlock := hs.lock_eq hu hl
  refine hs.stage hu (g := .leaving) (q := { s.ent u.ent with valid := false })
    ⟨rfl, rfl, rfl, rfl, .inr hlock, hlock, fun hgl => ?_, fun hv _ => ?_,
      fun _ _ => ⟨rfl, rfl⟩, fun _ => hs.disk_eq hu (.inr hlock) hp⟩
  · rcases hgl with hc | hc | hc | hc | hc | hc | hc <;> cases hc
  · cases hv

end

/-! ## The steps that change an inode -/

variable {d : Dinode}

theorem setDin_coherent (hs : Coherent s A) (hu : s.use h = some u)
    (hl : u.stage.Loaded) (hf : u.stage ≠ .freed) (hg : g.Locked) (htype : g ≠ .cleared → d.type ≠ 0)
    (hdisk : ¬ g.Pending → s.dinode (s.ent u.ent).key = d) :
    Coherent (setDin s h u g d) (upd A (s.ent u.ent).key d) := by
  have hlock := hs.lock_eq hu hl.locked
  have hv := hs.loaded h u hu hl
  refine hs.stage hu (g := g) (q := { s.ent u.ent with din := d })
    ⟨rfl, rfl, rfl, rfl, .inr hlock, ?_, fun _ => hv, fun _ _ => ?_, fun k hk => ?_, fun hp => ?_⟩
  · rw [if_pos hg]
    exact hlock
  · exact ⟨(upd_same _ _ _).symm, (hs.held h u hu hl.locked hv hf).disk_type,
      fun hc => htype fun he => hc (by rw [he])⟩
  · exact ⟨rfl, upd_ne _ _ hk⟩
  · exact (hdisk hp).trans (upd_same _ _ _).symm

theorem iupdate_coherent (hs : Coherent s A) (hu : s.use h = some u)
    (hp : u.stage.Pending) (hl : u.stage.Loaded) (hf : u.stage ≠ .freed) (hgl : g.Locked)
    (hg : u.stage = .cleared → g = .freed) : Coherent (iupdate s h u g) A := by
  have hlock := hs.lock_eq hu hp.locked
  have hv := hs.loaded h u hu hl
  have hfr := hs.held h u hu hp.locked hv hf
  have hstore : ∀ k, (iupdate s h u g).dinode k = upd s.dinode (s.ent u.ent).key (s.ent u.ent).din k :=
    fun k => dinode_store s _ k _
  refine hs.stage hu (g := g) (q := s.ent u.ent)
    ⟨?_, rfl, rfl, rfl, .inr hlock, ?_, fun _ => hv, fun _ hgf => ?_, fun k hk => ?_, fun _ => ?_⟩
  · rw [upd_eq_self]
    rfl
  · rw [if_pos hgl]
    exact hlock
  · have htype := hfr.type fun hc => hgf (hg (Option.some.inj hc))
    refine ⟨hfr.din, ?_, fun _ => htype⟩
    rw [hstore, upd_same]
    exact htype
  · exact ⟨by rw [hstore, upd_ne _ _ hk], rfl⟩
  · rw [hstore, upd_same]
    exact hfr.din

/-! ## References -/

variable {b : Fin NINODE}

theorem Coherent.recount (hs : Coherent s A) {r : Nat} {v : Option Use}
    (hold : ∀ u, s.use h = some u → ¬ u.stage.Locked) (hnew : ∀ u, v = some u → ¬ u.stage.Locked)
    (hpos : 0 < (s.ent b).ref) (hent : t.ent = upd s.ent b { s.ent b with ref := r })
    (huse : t.use = upd s.use h v) (hdisk : t.dinode = s.dinode)
    (hcount : ∀ c, (t.ent c).ref = (Finset.univ.filter fun k => Uses c (t.use k)).card) :
    Coherent t A := by
  have hsame : ∀ c, (t.ent c).key = (s.ent c).key ∧ (t.ent c).lock = (s.ent c).lock ∧
      (t.ent c).valid = (s.ent c).valid ∧ (t.ent c).din = (s.ent c).din := fun c => by
    by_cases hc : c = b
    · rw [hent, hc, upd_same]
      exact ⟨rfl, rfl, rfl, rfl⟩
    · rw [hent, upd_ne _ _ hc]
      exact ⟨rfl, rfl, rfl, rfl⟩
  have hin : ∀ c, 0 < (t.ent c).ref → 0 < (s.ent c).ref := fun c hc => by
    by_cases hcb : c = b
    · rw [hcb]
      exact hpos
    · rwa [hent, upd_ne _ _ hcb] at hc
  -- the handle holds no lock, before or after
  have hlocked : ∀ k u, u.stage.Locked → (t.use k = some u ↔ s.use k = some u) := fun k u hl => by
    by_cases hk : k = h
    · subst hk
      rw [huse, upd_same]
      exact iff_of_false (fun hu => hnew u hu hl) fun hu => hold u hu hl
    · rw [huse, upd_ne _ _ hk]
  have hfresh : ∀ (g : Option Stage) c d a, Fresh g (s.ent c) d a → Fresh g (t.ent c) d a :=
    fun g c d a hf => ⟨(hsame c).2.2.2.trans hf.din, hf.disk_type, fun hg => by
      rw [(hsame c).2.2.2]
      exact hf.type hg⟩
  refine ⟨fun c d hc hd he => ?_, hcount, fun c k => ?_, fun k u hu hl => ?_, fun c hv hr hl => ?_,
    fun k u hu hl hv hf => ?_, fun k hk => ?_⟩
  · rw [(hsame c).1, (hsame d).1] at he
    exact hs.unique c d (hin c hc) (hin d hd) he
  · rw [(hsame c).2.1, hs.lock c k]
    constructor
    · rintro ⟨u, hu, he, hl⟩
      exact ⟨u, (hlocked k u hl).mpr hu, he, hl⟩
    · rintro ⟨u, hu, he, hl⟩
      exact ⟨u, (hlocked k u hl).mp hu, he, hl⟩
  · rw [(hsame _).2.2.1]
    exact hs.loaded k u ((hlocked k u hl.locked).mp hu) hl
  · rw [(hsame c).2.2.1] at hv
    rw [(hsame c).2.1] at hl
    rw [hdisk, (hsame c).1]
    exact hfresh _ _ _ _ (hs.idle c hv (hin c hr) hl)
  · rw [(hsame _).2.2.1] at hv
    rw [hdisk, (hsame _).1]
    exact hfresh _ _ _ _ (hs.held k u ((hlocked k u hl).mp hu) hl hv hf)
  · rw [hdisk]
    refine hs.disk k fun k' u hu hp => ?_
    have := hk k' u ((hlocked k' u hp.locked).mpr hu) hp
    rwa [(hsame _).1] at this

theorem Coherent.addRef (hs : Coherent s A) (hu : s.use h = none) (hpos : 0 < (s.ent b).ref) :
    Coherent ((s.set b fun p => { p with ref := p.ref + 1 }).setUse h (some ⟨b, .counted⟩)) A := by
  refine hs.recount (fun u hv => by rw [hu] at hv; cases hv)
    (fun u hv => by cases hv; exact fun hl => hl.1 rfl) hpos rfl rfl rfl fun c => ?_
  have hcard := card_filter_upd (Uses c) s.use h (some ⟨b, .counted⟩)
  rw [hu, if_neg (by simp [Uses]), ← hs.count c] at hcard
  change (upd s.ent b _ c).ref = (Finset.univ.filter fun k => Uses c (upd s.use h _ k)).card
  by_cases hc : c = b
  · subst hc
    rw [if_pos (by simp [Uses])] at hcard
    rw [upd_same]
    exact hcard.symm
  · rw [if_neg (by simpa [Uses] using fun he => hc he.symm)] at hcard
    rw [upd_ne _ _ hc]
    exact hcard.symm

theorem drop_coherent (hs : Coherent s A) (hu : s.use h = some u)
    (hst : u.stage = .dropping) : Coherent (drop s h u) A := by
  have hpos := hs.pos hu
  refine hs.recount (fun v hv => ?_) (fun v hv => by cases hv) hpos rfl rfl rfl fun c => ?_
  · rw [hu] at hv
    cases hv
    rw [hst]
    exact fun hl => hl.2 rfl
  · have hcard := card_filter_upd (Uses c) s.use h none
    rw [hu, if_neg (by simp [Uses] : ¬ Uses c none), ← hs.count c] at hcard
    change (upd s.ent u.ent _ c).ref = (Finset.univ.filter fun k => Uses c (upd s.use h _ k)).card
    by_cases hc : c = u.ent
    · subst hc
      rw [if_pos (by simp [Uses])] at hcard
      rw [upd_same]
      change (s.ent u.ent).ref - 1 = _
      omega
    · rw [if_neg (by simpa [Uses] using fun he => hc he.symm)] at hcard
      rw [upd_ne _ _ hc]
      omega

theorem Coherent.recycle (hs : Coherent s A) (hu : s.use h = none)
    (hfree : (s.ent b).ref = 0) {dev inum : Nat}
    (hmiss : ∀ c, 0 < (s.ent c).ref → (s.ent c).key ≠ (dev, inum)) :
    Coherent ((s.set b fun p => { p with dev := dev, inum := inum, ref := 1, valid := false }).setUse h
      (some ⟨b, .counted⟩)) A := by
  have hnone : ∀ k u, s.use k = some u → u.ent ≠ b := fun k u hk he => by
    have := hs.pos hk
    rw [he, hfree] at this
    omega
  generalize ht : Sys.setUse _ h _ = t
  have hself : t.ent b = { s.ent b with dev := dev, inum := inum, ref := 1, valid := false } := by
    rw [← ht]
    exact upd_same _ _ _
  have hne : ∀ c, c ≠ b → t.ent c = s.ent c := fun c hc => by
    rw [← ht]
    exact upd_ne _ _ hc
  have huse : t.use = upd s.use h (some ⟨b, .counted⟩) := by rw [← ht]; rfl
  have hdisk : t.dinode = s.dinode := by rw [← ht]; rfl
  have hlocked : ∀ k u, u.stage.Locked → (t.use k = some u ↔ s.use k = some u) := fun k u hl => by
    by_cases hk : k = h
    · subst hk
      rw [huse, upd_same, hu]
      refine iff_of_false (fun hc => ?_) fun hc => by cases hc
      cases hc
      exact hl.1 rfl
    · rw [huse, upd_ne _ _ hk]
  refine ⟨fun c d hc hd he => ?_, fun c => ?_, fun c k => ?_, fun k u hk hl => ?_,
    fun c hv hr hl => ?_, fun k u hk hl hv hf => ?_, fun k hk => ?_⟩
  · by_cases hcb : c = b
    · by_cases hdb : d = b
      · rw [hcb, hdb]
      · rw [hcb, hself, hne d hdb] at he
        rw [hne d hdb] at hd
        exact absurd he.symm (hmiss d hd)
    · by_cases hdb : d = b
      · rw [hdb, hself, hne c hcb] at he
        rw [hne c hcb] at hc
        exact absurd he (hmiss c hc)
      · rw [hne c hcb, hne d hdb] at he
        rw [hne c hcb] at hc
        rw [hne d hdb] at hd
        exact hs.unique c d hc hd he
  · have hcard := card_filter_upd (Uses c) s.use h (some ⟨b, .counted⟩)
    rw [hu, if_neg (by simp [Uses]), ← hs.count c] at hcard
    rw [huse]
    by_cases hc : c = b
    · subst hc
      rw [if_pos (by simp [Uses]), hfree] at hcard
      rw [hself]
      dsimp only
      omega
    · rw [if_neg (by simpa [Uses] using fun he => hc he.symm)] at hcard
      rw [hne c hc]
      omega
  · have hlock : (t.ent c).lock = (s.ent c).lock := by
      by_cases hc : c = b
      · rw [hc, hself]
      · rw [hne c hc]
    rw [hlock, hs.lock c k]
    constructor
    · rintro ⟨u, hk, he, hl⟩
      exact ⟨u, (hlocked k u hl).mpr hk, he, hl⟩
    · rintro ⟨u, hk, he, hl⟩
      exact ⟨u, (hlocked k u hl).mp hk, he, hl⟩
  · have hk := (hlocked k u hl.locked).mp hk
    rw [hne _ (hnone k u hk)]
    exact hs.loaded k u hk hl
  · by_cases hc : c = b
    · rw [hc, hself] at hv
      cases hv
    · rw [hne c hc] at hv hr hl ⊢
      rw [hdisk]
      exact hs.idle c hv hr hl
  · have hk := (hlocked k u hl).mp hk
    rw [hne _ (hnone k u hk)] at hv ⊢
    rw [hdisk]
    exact hs.held k u hk hl hv hf
  · rw [hdisk]
    refine hs.disk k fun k' u hk' hp => ?_
    have := hk k' u ((hlocked k' u hp.locked).mpr hk') hp
    rwa [hne _ (hnone k' u hk')] at this

theorem iget_coherent (hs : Coherent s A) (hu : s.use h = none) {dev inum : Nat}
    (ht : iget s h dev inum = some t) : Coherent t A := by
  unfold iget at ht
  split at ht
  case h_1 b hb =>
    cases ht
    exact hs.addRef hu (of_decide_eq_true (firstFin_some hb)).1
  case h_2 hmiss =>
    obtain ⟨b, hb, rfl⟩ := Option.map_eq_some_iff.mp ht
    refine hs.recycle hu (of_decide_eq_true (firstFin_some hb)) fun c hc he => ?_
    have hno := firstFin_none hmiss c
    rw [decide_eq_false_iff_not] at hno
    exact hno ⟨hc, congrArg Prod.fst he, congrArg Prod.snd he⟩

/-! ## Holes -/

/-- Every block of the range that lies below the size is mapped. -/
def Full (d : Dinode) (off len : Nat) : Prop :=
  ∀ bn ∈ blocksOf off len, bn * BSIZE < d.size.toNat → d.addr (slot bn) ≠ 0

instance (d : Dinode) (off len : Nat) : Decidable (Full d off len) :=
  inferInstanceAs (Decidable (∀ bn ∈ blocksOf off len, _))

/-- The bytes of the inode that a read or a write goes over. -/
def Event.range (d : Dinode) : Event H → Option (Nat × Nat)
  | .readi off n _ => some (off, readLen d off n)
  | .writei off n _ => some (off, writeLen d off n)
  | _ => none

/-- A read or a write meets no hole. -/
def Mapped (s : Sys H) (e : H × Event H) : Prop :=
  ∀ u ∈ s.use e.1, ∀ r ∈ e.2.range (s.ent u.ent).din, Full (s.ent u.ent).din r.1 r.2

instance (s : Sys H) (e : H × Event H) : Decidable (Mapped s e) :=
  inferInstanceAs (Decidable (∀ u ∈ s.use e.1, ∀ r ∈ e.2.range (s.ent u.ent).din, _))

theorem mapAddrs_type (blocks : Nat → Nat) (d : Dinode) (off n : Nat) :
    (mapAddrs blocks d off n).type = d.type := by
  unfold mapAddrs
  induction blocksOf off n generalizing d with
  | nil => rfl
  | cons bn l ih =>
    rw [List.foldl_cons, ih, mapAddr]
    split <;> rfl

variable {off : Nat}

theorem mapAddrs_eq {blocks : Nat → Nat} {n : Nat}
    (h : ∀ bn ∈ blocksOf off n, d.addr (slot bn) ≠ 0) : mapAddrs blocks d off n = d := by
  unfold mapAddrs
  generalize blocksOf off n = l at h
  induction l with
  | nil => rfl
  | cons bn l ih =>
    rw [List.foldl_cons, mapAddr, if_neg (h bn List.mem_cons_self)]
    exact ih fun c hc => h c (List.mem_cons_of_mem _ hc)

theorem blocksOf_below {n bn size : Nat} (hle : off + n ≤ size) (hbn : bn ∈ blocksOf off n) :
    bn * BSIZE < size := by
  unfold blocksOf at hbn
  split at hbn
  · cases hbn
  · rw [List.mem_range'_1] at hbn
    simp only [BSIZE] at *
    omega

theorem readLen_le (d : Dinode) (off n : Nat) :
    readLen d off n = 0 ∨ off + readLen d off n ≤ d.size.toNat := by
  unfold readLen
  split
  · exact .inl rfl
  · split
    · exact .inl rfl
    · split <;> omega

theorem Full.mapAddrs_eq {len : Nat} (h : Full d off len)
    (hle : len = 0 ∨ off + len ≤ d.size.toNat) (blocks : Nat → Nat) : mapAddrs blocks d off len = d := by
  refine Icache.mapAddrs_eq fun bn hbn => ?_
  rcases hle with rfl | hle
  · simp [blocksOf] at hbn
  · exact h bn hbn (blocksOf_below hle hbn)

/-! ## Runs -/

theorem useStep_coherent (hs : Coherent s A) (hu : s.use h = some u) {e : Event H}
    (ht : useStep s h u e = some t) (hC : Mapped s (h, e)) : Coherent t (note s (h, e) t A) := by
  have hheld := fun (hl : u.stage.Loaded) (hf : u.stage ≠ .freed) =>
    hs.held h u hu hl.locked (hs.loaded h u hu hl) hf
  have hlocked : u.stage = .locked → (s.ent u.ent).din.type ≠ 0 ∧
      s.dinode (s.ent u.ent).key = (s.ent u.ent).din := fun hst => by
    have hl : u.stage.Loaded := .inl hst
    have hp : ¬ u.stage.Pending := by rw [hst]; rintro (hc | hc | hc) <;> cases hc
    have hfr := hheld hl (by rw [hst]; rintro ⟨⟩)
    exact ⟨hfr.type (by rw [hst]; rintro ⟨⟩),
      (hs.disk_eq hu (.inr (hs.lock_eq hu hl.locked)) hp).trans hfr.din.symm⟩
  -- one case for each stage and event, most of which do not go together
  cases hst : u.stage <;> rw [useStep.eq_def, hst] at ht <;> cases e
  case counted.acquire => exact acquire_coherent hs hu (.inl rfl) hst ht
  case counted.iputAcquire => exact acquire_coherent hs hu (.inr rfl) hst ht
  case acquired.load => exact load_coherent hs hu hst ht
  case locked.assign major minor nlink =>
    cases ht
    simp only [note, hu]
    rw [show (setDin s h u .changed _).ent u.ent = _ from upd_same _ _ _]
    exact setDin_coherent hs hu (.inl hst) (by rw [hst]; rintro ⟨⟩) (by decide) (fun _ => (hlocked hst).1)
      fun hc => absurd (.inl rfl) hc
  case locked.readi off n blocks =>
    cases ht
    have hfull : Full (s.ent u.ent).din off _ := hC u hu (off, _) rfl
    have heq := hfull.mapAddrs_eq (readLen_le _ _ _) blocks
    simp only [note, hu, readi, heq]
    rw [show (setDin s h u .locked _).ent u.ent = _ from upd_same _ _ _]
    exact setDin_coherent hs hu (.inl hst) (by rw [hst]; rintro ⟨⟩) (by decide) (fun _ => (hlocked hst).1)
      fun _ => (hlocked hst).2
  case locked.writei off n blocks =>
    cases ht
    have hf : u.stage ≠ .freed := by rw [hst]; rintro ⟨⟩
    have hfull : Full (s.ent u.ent).din off _ := hC u hu (off, _) rfl
    simp only [note, hu, writei]
    split
    · rw [show (setDin s h u .changed _).ent u.ent = _ from upd_same _ _ _]
      refine setDin_coherent hs hu (.inl hst) hf (by decide) (fun _ => ?_) fun hc => absurd (.inl rfl) hc
      change (mapAddrs _ _ _ _).type ≠ 0
      rw [mapAddrs_type]
      exact (hlocked hst).1
    · next hgrow =>
        have heq := hfull.mapAddrs_eq (by omega) blocks
        rw [heq, show (setDin s h u .locked _).ent u.ent = _ from upd_same _ _ _]
        exact setDin_coherent hs hu (.inl hst) hf (by decide) (fun _ => (hlocked hst).1)
          fun _ => (hlocked hst).2
  case locked.iunlock =>
    cases ht
    exact unlock_coherent hs hu (.inl hst) (by decide)
  case changed.iupdate =>
    cases ht
    refine iupdate_coherent hs hu (.inl hst) (.inr (.inl hst)) ?_ (by decide) fun hc => ?_
    · rw [hst]; rintro ⟨⟩
    · rw [hst] at hc; cases hc
  case putting.iputCheck =>
    cases ht
    refine hs.move hu (by rw [hst]; decide) ?_ (by rw [hst]; rintro ⟨⟩) ?_ ?_ (by rw [hst]; rintro ⟨⟩)
    · rw [hst]; rintro (hc | hc | hc) <;> cases hc
    · split <;> decide
    · split
      · next hc => exact fun _ => hc.1
      · rintro (hc | hc | hc | hc | hc | hc | hc) <;> cases hc
  case freeing.itrunc =>
    cases ht
    have hl : u.stage.Loaded := .inr (.inr (.inl hst))
    have hf : u.stage ≠ .freed := by rw [hst]; rintro ⟨⟩
    have hty := (hheld hl hf).type (by rw [hst]; rintro ⟨⟩)
    simp only [note, hu, itrunc]
    rw [show (setDin s h u .truncated _).ent u.ent = _ from upd_same _ _ _]
    exact setDin_coherent hs hu hl hf (by decide) (fun _ => hty) fun hc => absurd (.inr (.inl rfl)) hc
  case truncated.iupdate =>
    cases ht
    refine iupdate_coherent hs hu (.inr (.inl hst)) (.inr (.inr (.inr (.inl hst)))) ?_ (by decide) fun hc => ?_
    · rw [hst]; rintro ⟨⟩
    · rw [hst] at hc; cases hc
  case trimmed.clearType =>
    cases ht
    simp only [note, hu]
    rw [show (setDin s h u .cleared _).ent u.ent = _ from upd_same _ _ _]
    exact setDin_coherent hs hu (.inr (.inr (.inr (.inr (.inl hst))))) (by rw [hst]; rintro ⟨⟩) (by decide)
      (fun hc => absurd rfl hc) fun hc => absurd (.inr (.inr rfl)) hc
  case cleared.iupdate =>
    cases ht
    refine iupdate_coherent hs hu (.inr (.inr hst)) (.inr (.inr (.inr (.inr (.inr (.inl hst)))))) ?_ (by decide)
      fun _ => rfl
    rw [hst]; rintro ⟨⟩
  case freed.invalidate =>
    cases ht
    exact invalidate_coherent hs hu hst
  case leaving.iputRelease =>
    cases ht
    exact unlock_coherent hs hu (.inr hst) (by decide)
  case dropping.drop =>
    cases ht
    exact drop_coherent hs hu hst
  all_goals cases ht

theorem step_coherent (hs : Coherent s A) {e : H × Event H} (ht : step s e = some t)
    (hC : Mapped s e) : Coherent t (note s e t A) := by
  obtain ⟨h, e⟩ := e
  cases e
  case ialloc dev type =>
    obtain ⟨inum, hi, rfl⟩ := Option.map_eq_some_iff.mp ht
    simp only [note, hi]
    rw [dinode_store, upd_same]
    exact hs.ialloc (of_decide_eq_true (firstFrom_some hi).2.2.1) _
  case iget dev inum =>
    change (if _ then _ else _) = _ at ht
    split at ht
    case isTrue hu => exact iget_coherent hs hu ht
    case isFalse => cases ht
  case idup dst =>
    obtain ⟨u, hu, ht⟩ := Option.bind_eq_some_iff.mp ht
    unfold idup at ht
    split at ht
    case isTrue hd =>
      cases ht
      exact hs.addRef hd (hs.pos hu)
    case isFalse => cases ht
  all_goals
    obtain ⟨u, hu, ht⟩ := Option.bind_eq_some_iff.mp ht
    exact useStep_coherent hs hu ht hC

omit [DecidableEq H] in
theorem boot_coherent (sb : Superblock) (disk : Nat → Nat → Block) :
    Coherent (boot H sb disk) (boot H sb disk).dinode where
  unique := fun b c hb => absurd hb (Nat.lt_irrefl 0)
  count := fun b => by simp [boot, Uses]
  lock := fun b h => by simp [boot]
  loaded := fun h u hu => by cases hu
  idle := fun b hv => by cases hv
  held := fun h u hu => by cases hu
  disk := fun _ _ => rfl

/-- What the cache promises: one entry for each inode, a valid entry that no one has locked
agrees with the disk, and who has locked an inode sees what was last written to it. -/
structure Sound (s : Sys H) (A : Inodes) : Prop where
  unique : ∀ b c, 0 < (s.ent b).ref → 0 < (s.ent c).ref → (s.ent b).key = (s.ent c).key → b = c
  agrees : ∀ b, 0 < (s.ent b).ref → (s.ent b).valid = true → (s.ent b).lock = none →
    (s.ent b).din = s.dinode (s.ent b).key
  latest : ∀ h u, s.use h = some u → u.stage = .locked →
    (s.ent u.ent).valid = true ∧ (s.ent u.ent).din = A (s.ent u.ent).key

omit [DecidableEq H] in
theorem Coherent.sound (hs : Coherent s A) : Sound s A where
  unique := hs.unique
  agrees := fun b hr hv hl => by
    rw [(hs.idle b hv hr hl).din]
    refine (hs.disk _ fun h u hu hp he => ?_).symm
    have hb := hs.unique _ _ (hs.pos hu) hr he
    have hlock := hs.lock_eq hu hp.locked
    rw [hb, hl] at hlock
    cases hlock
  latest := fun h u hu hst => by
    have hl : u.stage.Loaded := by rw [hst]; exact .inl rfl
    have hv := hs.loaded h u hu hl
    exact ⟨hv, (hs.held h u hu hl.locked hv (by rw [hst]; rintro ⟨⟩)).din⟩

/-- The table of inodes along a run. -/
abbrev traced : Sys H × Inodes → H × Event H → Option (Sys H × Inodes) := withHistory step note

/-- In every run in which reads and writes meet no hole, the cache keeps its promise in
every state, and `iupdate` of one inode leaves all others on disk as they are. -/
theorem icache_coherent {sb : Superblock} {disk : Nat → Nat → Block} {es : List (H × Event H)}
    {x : Sys H × Inodes} (hrun : run traced (boot H sb disk, (boot H sb disk).dinode) es = some x)
    (hC : Always traced (fun x e => Mapped x.1 e) (boot H sb disk, (boot H sb disk).dinode) es) :
    Sound x.1 x.2 ∧ ∀ h t, step x.1 (h, .iupdate) = some t → ∀ u ∈ x.1.use h,
      ∀ k, k ≠ (x.1.ent u.ent).key → t.dinode k = x.1.dinode k := by
  have hs : Coherent x.1 x.2 := by
    refine run_invariant_always (P := fun x => Coherent x.1 x.2) (fun y e z hstep hm hy => ?_) hrun hC
      (boot_coherent sb disk)
    obtain ⟨ht, hn⟩ := withHistory_some hstep
    rw [hn]
    exact step_coherent hy ht hm
  refine ⟨hs.sound, fun h t ht u hu k hk => ?_⟩
  obtain ⟨v, hv, ht⟩ := Option.bind_eq_some_iff.mp ht
  cases hu.symm.trans hv
  have hupd : ∃ g, t = iupdate x.1 h u g := by
    rw [useStep.eq_def] at ht
    cases hst : u.stage <;> rw [hst] at ht <;> cases ht <;> exact ⟨_, rfl⟩
  obtain ⟨g, rfl⟩ := hupd
  exact (dinode_store _ _ _ _).trans (upd_ne _ _ hk)

end

/-! ## A directory with a hole -/

/-- The layout of an image of `mkfs`. -/
def imageSb : Superblock := ⟨1000, 941, 200, 30, 2, 32, 58⟩

/-- A disk on which inode 1 is `d`. -/
def diskWith (d : Dinode) : Nat → Nat → Block :=
  fun _ b => if b = imageSb.iblock 1 then zeroBlock.setDinode 1 d else zeroBlock

/-- A directory of two blocks, of which the first is mapped: the root of an image with
thirty files. -/
def holed : Dinode := { Dinode.zero with type := T_DIR, nlink := 1, size := 1024 }.setAddr 0 59

/-- `readi` of the second block assigns to `addrs`, and nothing writes it to disk. -/
theorem icache_hole_lost : ∃ t, run step (boot (Fin 1) imageSb (diskWith holed))
    [(0, .iget 1 1), (0, .acquire), (0, .load), (0, .readi 512 16 fun _ => 60), (0, .iunlock)] = some t ∧
    0 < (t.ent 0).ref ∧ (t.ent 0).valid = true ∧ (t.ent 0).lock = none ∧
      (t.ent 0).din ≠ t.dinode (t.ent 0).key := by
  obtain ⟨t, ht, hp⟩ := (Option.any_eq_true _ _).mp
    (show (run step (boot (Fin 1) imageSb (diskWith holed)) [(0, .iget 1 1), (0, .acquire),
        (0, .load), (0, .readi 512 16 fun _ => 60), (0, .iunlock)]).any (fun t => decide
          (0 < (t.ent 0).ref ∧ (t.ent 0).valid = true ∧ (t.ent 0).lock = none ∧
            (t.ent 0).din ≠ t.dinode (t.ent 0).key)) = true by decide +kernel)
  exact ⟨t, ht, of_decide_eq_true hp⟩

def oneBlock : Dinode := { Dinode.zero with type := T_FILE, nlink := 1, size := 512 }.setAddr 0 59

/-- Two users of one file: the first writes at its end, the second adds a link. -/
def twoUsers : List (Bool × Event Bool) :=
  [(false, .iget 1 1), (false, .acquire), (false, .load), (true, .iget 1 1),
    (false, .writei 512 16 fun _ => 60), (false, .iupdate), (false, .iunlock), (true, .acquire),
    (true, .load), (true, .assign 0 0 2), (true, .iupdate), (true, .iunlock), (false, .iputAcquire),
    (false, .iputCheck), (false, .iputRelease), (false, .drop)]

theorem icache_coherent_twoUsers : ∃ x, run traced (boot Bool imageSb (diskWith oneBlock),
      (boot Bool imageSb (diskWith oneBlock)).dinode) twoUsers = some x ∧ Sound x.1 x.2 := by
  obtain ⟨x, hx⟩ := Option.isSome_iff_exists.mp
    (show (run traced (boot Bool imageSb (diskWith oneBlock),
      (boot Bool imageSb (diskWith oneBlock)).dinode) twoUsers).isSome = true by decide +kernel)
  exact ⟨x, hx, (icache_coherent hx (by decide +kernel)).1⟩

end Xv6.Icache
