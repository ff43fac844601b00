import Xv6.Fs.LinkSpec

/-!
# Runs of system calls

Between two system calls the state alone determines the view: `Fs.view`. A state
is sound if it realizes that view. Every call that returns takes a sound state
to a sound state, whatever its arguments, and `Effect` is what it does to the
nodes. Two properties of the disk follow for every run: the blocks are owned
exactly, and no file has a hole.
-/

namespace Xv6

open Hoare Table Scan Trans

variable {g : View} {s t : Fs} {k : Fin NINODE} {i : Nat}

/-! ## States between calls -/

/-- The nodes on disk. -/
def Fs.node (s : Fs) (i : Nat) : Node :=
  if i < s.sb.ninodes then absNode s.blk (s.dinode i) else Node.unused

/-- The view of a state between two calls. -/
def Fs.view (s : Fs) : View where
  sb := s.sb
  cur := s.cur
  user := s.user
  owner := s.user
  inum := fun k => (s.icache k).inum
  node := s.node
  refs := []
  locks := ∅
  op := false

/-- The state realizes its view, and files nobody refers to are open on nothing. -/
structure Fs.Sound (s : Fs) : Prop where
  inv : Inv s.view s
  closed : s.user.Closed

theorem Inv.node_eq (h : Inv g s) : g.node = s.node := by
  funext i
  unfold Fs.node
  rw [h.sb]
  by_cases hi : i < g.sb.ninodes
  · rw [if_pos hi, h.disk.node_eq i hi]
  · rw [if_neg hi, h.disk.node_out i (Nat.le_of_not_lt hi)]

theorem Inv.sound (h : Inv g s) (hr : g.Rest) : s.Sound := by
  have hown : g.owner = s.user := hr.owner.trans h.user.symm
  have hn := h.node_eq
  refine ⟨⟨rfl, h.geom', rfl, rfl, ?_, ?_, ?_⟩, ?_⟩
  · have := h.disk
    rw [hn, ← h.sb] at this
    exact this
  · refine
      { slot := fun k hk => ?_
        unique := h.cache.unique
        coherent := h.cache.coherent
        loaded := fun k hk hv => ?_
        ref_eq := fun k => ?_
        handle := fun j hj => absurd hj List.not_mem_nil
        lock_eq := fun k => ?_
        locked := fun k hk => absurd hk (Finset.notMem_empty _)
        held := fun k hk => ?_
        writers := fun f h1 h2 h3 => ?_ }
    · have := h.cache.slot k hk
      rwa [← h.sb] at this
    · have := h.cache.loaded k hk hv
      rwa [hn] at this
    · have := h.cache.ref_eq k
      rwa [hown, hr.refs] at this
    · have := h.cache.lock_eq k
      rw [hr.locks, if_neg (Finset.notMem_empty _)] at this
      exact this.trans (if_neg (Finset.notMem_empty _)).symm
    · change 0 < s.user.holds k at hk
      rw [← hown] at hk
      obtain ⟨h1, h2, h3⟩ := h.cache.held k hk
      rw [hn] at h2 h3
      rw [← h1] at h2 h3
      exact ⟨rfl, h2, h3⟩
    · change 0 < (s.user.ftable f).ref at h1
      change (s.user.ftable f).type = .inode at h2
      change (s.user.ftable f).writable = true at h3
      have hk : 0 < s.user.holds (s.user.ftable f).ip :=
        Nat.add_pos_left (Finset.card_pos.mpr ⟨f, Finset.mem_filter.mpr
          ⟨Finset.mem_univ f, h1, h2, rfl⟩⟩) _
      rw [← hown] at h1 h2 h3 hk
      have := h.cache.writers f h1 h2 h3
      rw [hn, ← (h.cache.held _ hk).1, hown] at this
      exact this
  · have := h.log
    rw [hr.op] at this
    exact this
  · have := hr.closed
    rwa [← h.user] at this

theorem Inv.uses_iff (h : Inv g s) (hr : g.Rest) (j : Nat) : s.view.Uses j ↔ g.Uses j := by
  have hown : g.owner = s.user := hr.owner.trans h.user.symm
  refine exists_congr fun k => ?_
  unfold View.At
  rw [hr.refs, hown]
  refine or_congr Iff.rfl (and_congr_right fun hk => ?_)
  rw [← (h.cache.held k (by rw [hown]; exact hk)).1]
  exact Iff.rfl

theorem Fs.Sound.withCur (h : s.Sound) (p : Fin NPROC) : ({ s with cur := p } : Fs).Sound := by
  obtain ⟨⟨h1, h2, h3, h4, h5, h6, h7⟩, h8⟩ := h
  refine ⟨⟨h1, h2, rfl, h4, h5, ?_, h7⟩, h8⟩
  exact
    { slot := h6.slot
      unique := h6.unique
      coherent := h6.coherent
      loaded := h6.loaded
      ref_eq := h6.ref_eq
      handle := h6.handle
      lock_eq := fun k => by
        have := h6.lock_eq k
        rw [show s.view.locks = ∅ from rfl, if_neg (Finset.notMem_empty _)] at this
        exact this.trans (if_neg (Finset.notMem_empty _)).symm
      locked := h6.locked
      held := h6.held
      writers := h6.writers }

theorem Fs.Sound.rest (h : s.Sound) : s.view.Rest := ⟨rfl, h.closed, rfl, rfl, rfl⟩

/-! ## What a call does -/

def Effect (g : View) : Call → View → Prop
  | .open path _, g' => Frees g.node g'.node ∨ ∃ p, path = some p ∧ Makes g p T_FILE 0 0 g'
  | .mkdir path, g' => Frees g.node g'.node ∨ ∃ p, path = some p ∧ Makes g p T_DIR 0 0 g'
  | .mknod path major minor, g' =>
    Frees g.node g'.node ∨ ∃ p, path = some p ∧ Makes g p T_DEV major minor g'
  | .link old new, g' => LinkPost g old new g'
  | .unlink path, g' => UnlinkPost g path g'
  | .write _ _, g' => ∀ j, (g.node j).Kept (g'.node j)
  | _, g' => Frees g.node g'.node

def Call.Stops (g : View) : Call → Stop → Prop
  | .link old new, e => SysLinkStop g old new e
  | .open _ _, e => CallStop g e
  | .mkdir _, e => CallStop g e
  | .mknod _ _ _, e => CallStop g e
  | .unlink _, e => CallStop g e
  | .chdir _, e => CallStop g e
  | .exec _ _, e => CallStop g e
  | _, e => FileStop e

theorem Rewrites.settled {g' : View} (h : Rewrites g g') (hs : g.Settled) : g'.Settled := by
  intro j hj hty h0
  rw [(h.kept j).type] at hty
  rw [(h.kept j).nlink] at h0
  rw [h.sb] at hj
  exact h.uses j (hs j hj hty h0)

theorem Rewrites.keeps {g' : View} (h : Rewrites g g') : Keeps g.node g'.node := by
  intro hm j hdir
  rw [(h.kept j).type] at hdir
  rw [(h.kept j).dir hdir]
  exact hm j hdir

theorem call_spec (h : Inv g s) (hidle : g.Idle) (c : Call)
    (hfork : ∀ child, c = .fork child → (g.user.proc child).live = false) :
    Wp c.run s (fun _ t => CallPost g (Effect g c) t) (c.Stops { g with op := true }) := by
  cases c with
  | «open» path omode =>
    exact (sysOpen_spec h hidle path omode).imp fun _ _ ht => ht.imp fun _ hp => hp.1.frees_or_makes
  | mkdir path =>
    exact (makeNode_spec h hidle path (by decide) 0 0).imp fun _ _ ht => ht.imp fun _ hp =>
      hp.frees_or
  | mknod path major minor =>
    exact (makeNode_spec h hidle path (by decide) major minor).imp fun _ _ ht => ht.imp fun _ hp =>
      hp.frees_or
  | link old new => exact (sysLink_spec h hidle old new).imp fun _ _ ht => ht.imp fun _ => (·.linkPost)
  | unlink path => exact (sysUnlink_spec h hidle path).imp fun _ _ ht => ht.imp fun _ => (·.unlinkPost)
  | chdir path =>
    exact (sysChdir_spec h hidle path).imp fun _ _ ht => ht.imp fun _ hp =>
      hp.frees_or.elim id id
  | close fd => exact (sysClose_spec h hidle fd).imp fun _ _ => Rests.callPost
  | dup fd => exact (sysDup_spec h hidle fd).imp fun _ _ => Rests.callPost
  | read fd n => exact (sysRead_spec h hidle fd n).imp fun _ _ => Rests.callPost
  | write fd src =>
    refine (sysWrite_spec h hidle fd src).imp ?_
    rintro _ t ⟨g', ht, hr, hw⟩
    exact ⟨g', ht, hr, hw.sb, hw.keeps, fun hs _ => ⟨hw.kept, hw.settled hs⟩⟩
  | fstat fd => exact (sysFstat_spec h hidle fd).imp fun _ _ => Rests.callPost
  | exec vm path => exact exec_spec h hidle vm path
  | fork child => exact (fork_spec h hidle (hfork child rfl)).imp fun _ _ => Rests.callPost
  | exit => exact (exit_spec h hidle).imp fun _ _ => Rests.callPost

theorem Effect.congr {c : Call} {g₁ g₂ : View} (h : Effect g c g₁) (hnode : g₂.node = g₁.node)
    (huses : ∀ j, g₂.Uses j → g₁.Uses j) : Effect g c g₂ := by
  cases c with
  | unlink =>
    simp only [Effect, UnlinkPost, Unlinks, hnode] at h ⊢
    exact ⟨h.1, fun j hj => h.2 j (huses j hj)⟩
  | link =>
    simp only [Effect, LinkPost, Links, hnode] at h ⊢
    exact h
  | «open» | mkdir | mknod =>
    simp only [Effect, Makes, hnode] at h ⊢
    exact h
  | _ =>
    simp only [Effect, hnode] at h ⊢
    exact h

def Fs.calls (s : Fs) (e : Event) : View := ({ s with cur := e.pid } : Fs).view

theorem Fs.Sound.idle (h : s.Sound) {e : Event} (hready : s.Ready e) : (s.calls e).Idle :=
  ⟨(h.withCur e.pid).rest, hready.1⟩

variable {e : Event}

theorem exec_ok (h : s.Sound) (hready : s.Ready e) {r : Int} (hexec : s.exec e = .ok (r, t)) :
    t.Sound ∧ t.sb = s.sb ∧ Keeps s.node t.node ∧ ((s.calls e).Settled → (s.calls e).NonNeg →
      Effect (s.calls e) e.call t.view ∧ t.view.Settled) := by
  have hspec := call_spec (h.withCur e.pid).inv (h.idle hready) e.call hready.2
  obtain ⟨g', h1, h2, h3, h4, h5⟩ := wp_ok hspec hexec
  have hnode : t.view.node = g'.node := h1.node_eq.symm
  have hkeeps : Keeps s.node t.node := by
    rw [show t.node = g'.node from hnode]
    exact h4
  refine ⟨h1.sound h2, h1.sb.trans h3, hkeeps, fun hs hn => ?_⟩
  obtain ⟨heff, hset⟩ := h5 hs hn
  refine ⟨heff.congr hnode fun j => (h1.uses_iff h2 j).mp, fun j hj hty h0 => ?_⟩
  rw [hnode] at hty h0
  exact (h1.uses_iff h2 j).mpr (hset j (by rw [← h1.sb]; exact hj) hty h0)

theorem exec_error (h : s.Sound) (hready : s.Ready e) {x : Stop}
    (hexec : s.exec e = .error x) : e.call.Stops { s.calls e with op := true } x :=
  wp_error (call_spec (h.withCur e.pid).inv (h.idle hready) e.call hready.2) hexec

/-! ## Runs -/

/-- The slot that `fork` was given is free. -/
def Call.childFree (s : Fs) : Call → Bool
  | .fork child => !(s.proc child).live
  | _ => true

instance (s : Fs) (e : Event) : Decidable (s.Ready e) :=
  decidable_of_iff ((s.proc e.pid).live = true ∧ e.call.childFree s = true) <| by
    refine and_congr_right fun _ => ?_
    cases e.call with
    | fork child =>
      unfold Call.childFree
      rw [Bool.not_eq_true']
      exact ⟨fun h c hc => by cases hc; exact h, fun h => h child rfl⟩
    | _ => exact ⟨fun _ _ hc => (by cases hc), fun _ => rfl⟩

/-- One system call that returns. -/
def Fs.step (s : Fs) (e : Event) : Option Fs :=
  if s.Ready e then
    match s.exec e with
    | .ok (_, t) => some t
    | .error _ => none
  else none

theorem Fs.step_some (h : s.step e = some t) : s.Ready e ∧ ∃ r, s.exec e = .ok (r, t) := by
  unfold Fs.step at h
  split at h
  next hready =>
    refine ⟨hready, ?_⟩
    cases hx : s.exec e with
    | ok q =>
      rw [hx] at h
      cases h
      exact ⟨q.1, rfl⟩
    | error x =>
      rw [hx] at h
      cases h
  next => cases h

theorem step_sound (h : s.step e = some t) (hs : s.Sound) : t.Sound := by
  obtain ⟨hready, r, hr⟩ := Fs.step_some h
  exact (exec_ok hs hready hr).1

theorem run_sound {es : List Event} (h : run Fs.step s es = some t) (hs : s.Sound) : t.Sound :=
  run_invariant (fun _ _ _ hu hs => step_sound hu hs) h hs

/-! ## Booting from an image -/

/-- The blocks are marked exactly if they are metadata or belong to an allocated
inode, and each of those is at one position of one inode, in the data area. -/
structure ExactBlocks (sb : Superblock) (blk : Nat → Block) (I : Nat → Dinode) : Prop where
  marked : ∀ b < sb.size, sb.bit blk b = true ↔
    b < sb.datastart ∨ ∃ i p, i < sb.ninodes ∧ (I i).type ≠ 0 ∧ (I i).ptr blk p = b
  unique : ∀ i j p q, i < sb.ninodes → (I i).type ≠ 0 → j < sb.ninodes → (I j).type ≠ 0 →
    (I i).ptr blk p = (I j).ptr blk q → (I i).ptr blk p ≠ 0 → i = j ∧ p = q
  inData : ∀ i p, i < sb.ninodes → (I i).type ≠ 0 → (I i).ptr blk p ≠ 0 →
    sb.InData ((I i).ptr blk p)

variable {sb : Superblock} {blk : Nat → Block}

theorem Owned.exactBlocks {I : Nat → Dinode}
    (h : Owned sb blk I ∅) (hg : sb.Geom) : ExactBlocks sb blk I := by
  have hpos : 0 < sb.datastart := Nat.zero_lt_of_lt hg.bmapstart_lt
  refine ⟨fun b hb => ⟨fun hbit => ?_, ?_⟩, fun i j p q hi ht hj hu he h0 => ?_, fun i p hi ht hp =>
    h.inData hi ht hp⟩
  · by_cases hd : b < sb.datastart
    · exact .inl hd
    · have hused : sb.Used blk b := ⟨⟨Nat.le_of_not_lt hd, hb⟩, hbit⟩
      have h0 : b ≠ 0 := by
        rintro rfl
        exact hd hpos
      rcases (h.pool.used_iff b h0).mp hused with ⟨q, hq⟩ | hq
      · unfold Superblock.own at hq
        split at hq
        next hc => exact .inr ⟨q.1, q.2, hc.1, hc.2, hq⟩
        next => exact absurd hq.symm h0
      · exact absurd hq (Set.notMem_empty b)
  · rintro (hd | ⟨i, p, hi, ht, rfl⟩)
    · exact h.meta_used b hd
    · by_cases h0 : (I i).ptr blk p = 0
      · rw [h0]
        exact h.meta_used 0 hpos
      · rw [← sb.own_eq blk hi ht p] at h0 ⊢
        exact (h.pool.used_own h0).2
  · exact h.ptr_inj hi ht hj hu he h0

theorem ExactBlocks.owned {I : Nat → Dinode} (h : ExactBlocks sb blk I) : Owned sb blk I ∅ := by
  have hle : sb.datastart ≤ sb.size := Nat.sub_le _ _
  have hown : ∀ q, sb.own blk I q ≠ 0 → q.1 < sb.ninodes ∧ (I q.1).type ≠ 0 ∧
      sb.own blk I q = (I q.1).ptr blk q.2 := by
    intro q hq
    unfold Superblock.own at hq ⊢
    split at hq
    next hc => exact ⟨hc.1, hc.2, if_pos hc⟩
    next => exact absurd rfl hq
  refine ⟨fun b hb => (h.marked b (by omega)).mpr (.inl hb), ?_, ?_, ?_, fun b h0 => ?_⟩
  · intro p q he h0
    obtain ⟨hp, tp, ep⟩ := hown p h0
    obtain ⟨hq, tq, eq⟩ := hown q (he ▸ h0)
    rw [ep, eq] at he
    rw [ep] at h0
    obtain ⟨h1, h2⟩ := h.unique _ _ _ _ hp tp hq tq he h0
    exact Prod.ext h1 h2
  · exact fun b hb => absurd hb (Set.notMem_empty b)
  · exact fun b hb => absurd hb (Set.notMem_empty b)
  · constructor
    · rintro ⟨hd, hbit⟩
      rcases (h.marked b hd.2).mp hbit with hlt | ⟨i, p, hi, ht, hp⟩
      · exact absurd hd.1 (Nat.not_le_of_lt hlt)
      · exact .inl ⟨(i, p), (sb.own_eq blk hi ht p).trans hp⟩
    · rintro (⟨q, rfl⟩ | hb)
      · obtain ⟨hi, ht, he⟩ := hown q h0
        rw [he] at h0 ⊢
        have hd := h.inData _ _ hi ht h0
        exact ⟨hd, (h.marked _ hd.2).mpr (.inr ⟨_, _, hi, ht, rfl⟩)⟩
      · exact absurd hb (Set.notMem_empty b)

def Superblock.inode (sb : Superblock) (blk : Nat → Block) (i : Nat) : Dinode :=
  (blk (sb.iblock i)).dinode (i % IPB)

/-- A disk to boot from: the blocks are owned exactly, every block below the size
of a file is mapped, directory entries name inodes of the table, and the root is
there. -/
structure Image (sb : Superblock) (blk : Nat → Block) : Prop where
  geom : sb.Geom
  blocks : ExactBlocks sb blk (sb.inode blk)
  mapped : ∀ i < sb.ninodes, (sb.inode blk i).type ≠ 0 → (sb.inode blk i).type ≠ T_DEV →
    NoHoles blk (sb.inode blk i)
  entries : ∀ i < sb.ninodes, (sb.inode blk i).type = T_DIR →
    (absNode blk (sb.inode blk i)).EntriesIn sb.ninodes
  root : (sb.inode blk ROOTINO).type ≠ 0 ∧ (sb.inode blk ROOTINO).nlink ≠ 0

/-- The state when the first process starts: its current directory, the root, is
in the first entry of the inode cache, not yet read. -/
def boot (sb : Superblock) (blk : Nat → Block) : Fs where
  sb := sb
  blk := blk
  log := ⟨sb.logstart, sb.nlog, 0, false, ⟨0, Vector.replicate LOGSIZE 0⟩⟩
  icache := fun k =>
    if k = 0 then ⟨ROOTDEV, ROOTINO, 1, none, false, Dinode.zero⟩
    else ⟨0, 0, 0, none, false, Dinode.zero⟩
  ftable := fun _ => ⟨.none, 0, false, false, 0, 0⟩
  proc := fun p => ⟨decide (p = 0), 0, fun _ => none⟩
  cur := 0
  input := fun _ => none

theorem boot_holds (sb : Superblock) (blk : Nat → Block) (k : Fin NINODE) :
    (boot sb blk).user.holds k = if k = 0 then 1 else 0 := by
  have hfile : ∀ f, ¬ ((boot sb blk).user.ftable f).OpenOn k := fun _ hc => absurd hc.1 (Nat.lt_irrefl 0)
  have hproc : ∀ p, ((boot sb blk).user.proc p).CwdIs k ↔ p = 0 ∧ k = 0 := fun p =>
    ⟨fun hc => ⟨of_decide_eq_true hc.1, hc.2.symm⟩, fun hc => ⟨decide_eq_true hc.1, hc.2.symm⟩⟩
  unfold User.holds
  rw [Finset.filter_false_of_mem fun f _ => hfile f, Finset.card_empty, Nat.zero_add]
  simp only [hproc]
  by_cases hk : k = 0
  · simp only [hk, and_true, if_true]
    rw [Finset.filter_eq' Finset.univ 0, if_pos (Finset.mem_univ _), Finset.card_singleton]
  · simp only [hk, and_false, if_false]
    rw [Finset.filter_false, Finset.card_empty]

theorem boot_sound (h : Image sb blk) : (boot sb blk).Sound := by
  have hnode : ∀ i < sb.ninodes, (boot sb blk).node i = absNode blk (sb.inode blk i) :=
    fun i hi => if_pos hi
  have hroot : (boot sb blk).node ROOTINO = absNode blk (sb.inode blk ROOTINO) :=
    hnode _ h.geom.root_lt
  -- The first entry of the cache is the only one in use.
  have hzero : ∀ k : Fin NINODE, 0 < ((boot sb blk).icache k).ref → k = 0 := by
    intro k hk
    by_contra hne
    unfold boot at hk
    dsimp only at hk
    rw [if_neg hne] at hk
    exact absurd hk (Nat.lt_irrefl 0)
  have hnew : ((boot sb blk).icache 0) = ⟨ROOTDEV, ROOTINO, 1, none, false, Dinode.zero⟩ := rfl
  refine ⟨⟨rfl, h.geom, rfl, rfl, ?_, ?_, rfl, fun _ => ⟨rfl, rfl⟩, fun hc => by cases hc⟩, ?_⟩
  · refine ⟨h.blocks.owned, hnode, fun i hi => if_neg (Nat.not_lt.mpr hi), fun i hi ht hd => ?_,
      fun i hi ht => ?_⟩
    · change ((boot sb blk).node i).type ≠ 0 at ht
      change ((boot sb blk).node i).type ≠ T_DEV at hd
      rw [hnode i hi] at ht hd
      exact h.mapped i hi ht hd
    · change ((boot sb blk).node i).type = T_DIR at ht
      change ((boot sb blk).node i).EntriesIn sb.ninodes
      rw [hnode i hi] at ht ⊢
      exact h.entries i hi ht
  · refine
      { slot := fun k hk => ?_
        unique := fun k l hk hl _ => (hzero k hk).trans (hzero l hl).symm
        coherent := fun k hk hv => ?_
        loaded := fun k hk hv => ?_
        ref_eq := fun k => ?_
        handle := fun j hj => absurd hj List.not_mem_nil
        lock_eq := fun k => ?_
        locked := fun k hk => absurd hk (Finset.notMem_empty _)
        held := fun k hk => ?_
        writers := fun f h1 => absurd h1 (Nat.lt_irrefl 0) }
    · rw [hzero k hk, hnew]
      exact ⟨rfl, Nat.one_pos, h.geom.root_lt⟩
    · rw [hzero k hk, hnew] at hv
      cases hv
    · rw [hzero k hk, hnew] at hv
      cases hv
    · change _ = (boot sb blk).user.holds k + 0
      rw [boot_holds]
      unfold boot
      dsimp only
      by_cases hk : k = 0
      · rw [if_pos hk, if_pos hk]
      · rw [if_neg hk, if_neg hk]
    · refine Eq.trans ?_ (if_neg (Finset.notMem_empty _)).symm
      unfold boot
      dsimp only
      split <;> rfl
    · change 0 < (boot sb blk).user.holds k at hk
      rw [boot_holds] at hk
      have hk0 : k = 0 := by
        by_contra hne
        rw [if_neg hne] at hk
        exact absurd hk (Nat.lt_irrefl 0)
      subst hk0
      refine ⟨rfl, ?_, fun h0 => ?_⟩
      · change ((boot sb blk).node ROOTINO).type ≠ 0
        rw [hroot]
        exact h.root.1
      · change ((boot sb blk).node ROOTINO).nlink = 0 at h0
        rw [hroot] at h0
        exact absurd h0 h.root.2
  · exact fun f _ hc => by cases hc

/-! ## Blocks and holes -/

theorem Call.Stops.ne_freeBlock {c : Call} {x : Stop} (h : c.Stops g x) : x ≠ .panic .freeBlock := by
  rintro rfl
  have hfile : ¬ FileStop (.panic .freeBlock) := fun hc => hc.elim id id
  have hcall : ¬ CallStop g (.panic .freeBlock) := by
    rintro (hc | hc | hc)
    · exact hc
    · cases hc
    · exact hc.1
  cases c with
  | link old new =>
    rcases h with hc | hc
    · exact hcall hc
    · cases hc.1
  | «open» | mkdir | mknod | unlink | chdir | exec => exact hcall h
  | _ => exact hfile h

/-- From an image on which the blocks are owned exactly, every run of system calls
keeps it so, and no call frees a block that is free. -/
theorem blocks_owned_exactly {sb : Superblock} {blk : Nat → Block} (himg : Image sb blk)
    {es : List Event} (h : run Fs.step (boot sb blk) es = some t) : ExactBlocks t.sb t.blk t.dinode ∧
      ∀ e, t.Ready e → t.exec e ≠ .error (.panic .freeBlock) := by
  have hs := run_sound h (boot_sound himg)
  refine ⟨Owned.exactBlocks hs.inv.disk.owned hs.inv.geom, fun e hready hx => ?_⟩
  exact (exec_error hs hready hx).ne_freeBlock rfl

/-- `iget` and `ilock`: how the code gets at the inode `i`. -/
def getInode (i : Nat) : Kern (Fin NINODE) := do
  let k ← iget ROOTDEV i
  ilock k
  return k

theorem getInode_spec (h : Inv g s) (hlocks : g.locks = ∅) (hi : 0 < i ∧ i < g.sb.ninodes) :
    Wp (getInode i) s
      (fun k t => Inv { g with refs := (k, i) :: g.refs, locks := {k} } t) fun _ => True := by
  unfold getInode
  refine (iget_spec h hi).bind ?_ fun _ _ => trivial
  intro k t ht
  refine (ilock_spec ht (.inl List.mem_cons_self) (by simp [hlocks])).bind ?_ fun _ _ => trivial
  rintro _ u ⟨hu, -⟩
  dsimp only at hu
  rw [hlocks, insert_empty_eq] at hu
  exact wp_pure.mpr hu

/-- Writing inside the size of an inode changes neither its copy nor the inode on
disk. -/
theorem writei_inside (h : Inv g s) (hop : g.op = true) (hk : k ∈ g.locks) (hat : g.At k i)
    (hdev : (g.node i).type ≠ T_DEV) (src : List UInt8) {off : Nat}
    (hle : off + src.length ≤ (g.node i).size) :
    Wp (writei k src off) s (fun _ t => t.icache = s.icache ∧ t.dinode i = s.dinode i) Stop.scarce := by
  have hinum := h.inum_eq hat
  have hlt := (h.at_lt hat).2
  have hty : (g.node i).type ≠ 0 := hinum ▸ h.locked_type hk
  have hd : (s.icache k).din = s.dinode i := hinum ▸ h.din_eq hk
  have hnode := h.disk.node_eq i hlt
  have hholes := h.disk.noHoles i hlt hty hdev
  have hsize : (s.dinode i).size.toNat = (g.node i).size := by rw [hnode]; rfl
  have hdtype : (s.dinode i).type = (g.node i).type := by rw [hnode]; rfl
  have howned : Owned s.sb s.blk s.dinode ∅ := by rw [h.sb]; exact h.disk.owned
  have hmax := hholes.1
  unfold writei
  simp only [wp_bind, wp_inode, hd, hsize, hdtype]
  refine wp_ite (fun hc => absurd hc hdev) fun _ => wp_ite (fun _ => wp_pure.mpr ⟨rfl, rfl⟩) fun _ =>
    wp_ite (fun _ => wp_pure.mpr ⟨rfl, rfl⟩) fun _ => ?_
  rw [wp_bind]
  refine (writeBlocks_spec (i := i) src.length off src s s.dinode (Nat.le_refl _) h.geom'
    (h.inOp hop) hd.symm (by rw [h.sb]; exact hlt) (hdtype ▸ hty) howned (by omega)).imp ?_
  rintro _ t ⟨d', hw⟩
  have hd' : d' = s.dinode i := hw.same fun o _ h2 => hholes.2 o (by omega)
  have hic : t.icache = s.icache := by rw [hw.icache, hd', ← hd, withDin_self]
  have hi : t.dinode i = s.dinode i := by
    have hc := hw.changed
    rw [h.sb] at hc
    unfold Fs.dinode
    rw [hw.frame.sb, h.sb, hc.inodes i hlt]
  simp only [wp_bind, wp_inode, hic, hd, hsize]
  exact wp_ite (fun hc => absurd hc.2 (by omega)) fun _ => wp_pure.mpr (wp_pure.mpr ⟨hic, hi⟩)

/-- From an image without holes, every run of system calls keeps files and
directories without holes. `readi` on such an inode returns, whatever the offset
and the length, and changes nothing, and `writei` inside the size of one leaves
the addresses alone. -/
theorem no_holes {sb : Superblock} {blk : Nat → Block} (himg : Image sb blk)
    {es : List Event} (h : run Fs.step (boot sb blk) es = some t) {i : Nat}
    (hlt : i < t.sb.ninodes) (hty : (t.dinode i).type = T_FILE ∨ (t.dinode i).type = T_DIR) :
    (t.dinode i).size.toNat ≤ MAXFILE * BSIZE ∧
    (∀ bn < ((t.dinode i).size.toNat + BSIZE - 1) / BSIZE, (t.dinode i).block t.blk bn ≠ 0) ∧
    (0 < i → ∀ k u, getInode i t = .ok (k, u) → ∀ off n, ∃ r, readi k off n u = .ok (r, u)) ∧
    (0 < i → ∀ k u, (do beginOp; getInode i) t = .ok (k, u) → ∀ src off r v,
      off + src.length ≤ (t.dinode i).size.toNat → writei k src off u = .ok (r, v) →
        v.icache = u.icache ∧ (v.dinode i).addrs = (u.dinode i).addrs) := by
  have hs := run_sound h (boot_sound himg)
  have hinv := hs.inv
  have hnode : t.view.node i = absNode t.blk (t.dinode i) := if_pos hlt
  have htype : (t.view.node i).type = (t.dinode i).type := by rw [hnode]; rfl
  have hsize : (t.view.node i).size = (t.dinode i).size.toNat := by rw [hnode]; rfl
  have h0 : (t.view.node i).type ≠ 0 := by
    rw [htype]
    rcases hty with hty | hty <;> rw [hty] <;> decide
  have hdev : (t.view.node i).type ≠ T_DEV := by
    rw [htype]
    rcases hty with hty | hty <;> rw [hty] <;> decide
  have hholes := hinv.disk.noHoles i hlt h0 hdev
  refine ⟨hholes.1, fun bn hbn => ?_, fun hi k u hu off n => ?_, fun hi k u hu src off r v hle hv => ?_⟩
  · have hdiv : BSIZE * bn / BSIZE = bn := Nat.mul_div_cancel_left _ (by decide)
    have := hholes.2 (BSIZE * bn) (by simp only [BSIZE] at hbn ⊢; omega)
    rwa [hdiv] at this
  · have hg := wp_ok (getInode_spec hinv rfl ⟨hi, hlt⟩) hu
    exact ⟨_, eq_of_wp ((readi_spec hg (Finset.mem_singleton_self _) (.inl List.mem_cons_self) hdev
      off n fun _ => False).imp fun _ _ hr => ⟨hr.2, hr.1⟩)⟩
  · have hk := Finset.mem_singleton_self k
    have hat : View.At { t.view with refs := [(k, i)], locks := {k}, op := true } k i :=
      .inl List.mem_cons_self
    have hop : Wp (do beginOp; getInode i) t (fun k u =>
        Inv { t.view with refs := [(k, i)], locks := {k}, op := true } u) fun _ => True := by
      refine (beginOp_spec hinv rfl _).seq ?_
      rintro _ w ⟨hw, -⟩
      exact getInode_spec hw rfl ⟨hi, hlt⟩
    have hg := wp_ok hop hu
    obtain ⟨h1, h2⟩ := wp_ok (writei_inside hg rfl hk hat hdev src (by rw [hsize]; exact hle)) hv
    exact ⟨h1, by rw [h2]⟩

/-! ## References and panics -/

/-- The panics that mean that the kernel broke a rule of its own, and not that something is full or
that a directory is ill formed. -/
def Panic.Internal : Panic → Bool
  | .outsideTrans | .committing | .freeBlock | .ilock | .iunlock | .bmapRange => true
  | .notDir | .dirlinkRead | .unlinkWritei | .createDots | .createDirlink => true
  | _ => false

theorem Call.Stops.not_internal {c : Call} {p : Panic} (h : c.Stops g (.panic p)) :
    p.Internal = false := by
  have hfile : FileStop (.panic p) → p.Internal = false := by
    cases p <;> simp [FileStop, Stop.scarce, Stop.badFile, Panic.Internal]
  have hcall : CallStop g (.panic p) → p.Internal = false := by
    cases p <;> simp [CallStop, Stop.scarce, Stop.Untidy, Panic.Internal]
  cases c with
  | link old new => exact h.elim hcall fun hc => nomatch hc.1
  | «open» | mkdir | mknod | unlink | chdir | exec => exact hcall h
  | _ => exact hfile h

end Xv6
