import Xv6.Fs.CallSpec

/-!
# What `link` and `unlink` do

`link` stores the new link count before it looks up the directory for the new
name, and takes it back if the name cannot be made. `dirlink` looks the name up
first, and gives back the inode it finds while the directory is locked: if the
name denotes the directory itself, the process waits for its own lock.
-/

namespace Xv6

open Hoare Table Scan

variable {g : View} {s : Fs} {k : Fin NINODE} {i : Nat}

/-! ## Link counts and names -/

def Node.withNlink (n : Node) (c : Int16) : Node := { n with nlink := c }

/-- The names and types are those of `node`. -/
def SameNames (node node' : Nat → Node) : Prop :=
  ∀ j, ∃ c, node' j = (node j).withNlink c

variable {node : Nat → Node}

theorem SameNames.resolve_eq {node' : Nat → Node} (h : SameNames node node') (parent : Bool) :
    ∀ (names : List (List UInt8)) (i : Nat) (name : List UInt8),
      resolve node' parent i names name = resolve node parent i names name
  | [], _, _ => rfl
  | x :: xs, i, name => by
    obtain ⟨c, hc⟩ := h i
    have hty : (node' i).type = (node i).type := by rw [hc]; rfl
    have hfind : (node' i).find x = (node i).find x := by rw [hc]; rfl
    have hent : ∀ e, (node' i).ent e = (node i).ent e := fun e => by rw [hc]; rfl
    rw [resolve, resolve, hty, hfind]
    split
    · split
      · rfl
      · split
        · rfl
        · rw [hent]
          exact SameNames.resolve_eq h parent xs _ _
    · rfl

theorem sameNames_upd (node : Nat → Node) (i : Nat) (c : Int16) :
    SameNames node (upd node i ((node i).withNlink c)) := by
  intro j
  by_cases h : j = i
  · subst h
    exact ⟨c, by rw [upd_same]⟩
  · exact ⟨(node j).nlink, by rw [upd_ne _ _ h]; rfl⟩

/-! ## `link` -/

/-- The new name denotes the directory it is to be made in. -/
def SelfLink (g : View) (old new : Option (List UInt8)) : Prop :=
  ∃ o n i d x e, old = some o ∧ new = some n ∧ g.lookup o = some i ∧ (g.node i).type ≠ T_DIR ∧
    g.parent n = some (d, x) ∧ (g.node d).find x = some e ∧ ((g.node d).ent e).inum = d

/-- The nodes after the name `x` in `d` was made a link to `i`. -/
def View.linked (g : View) (d : Nat) (x : List UInt8) (i : Nat) : Nat → Node :=
  upd (upd g.node i ((g.node i).withNlink ((g.node i).nlink + 1))) d ((g.node d).addEnt x i)

/-- The call makes a link. -/
def Links (g : View) (old new : Option (List UInt8)) (g' : View) : Prop :=
  ∃ o n i d x, old = some o ∧ new = some n ∧ g.lookup o = some i ∧ (g.node i).type ≠ T_DIR ∧
    (g.node i).type ≠ 0 ∧ g.parent n = some (d, x) ∧ (g.node d).type = T_DIR ∧
    (g.node d).find x = none ∧ (g.node d).Aligned ∧ Frees (g.linked d x i) g'.node

/-- What `link` does: it makes the link or leaves the names alone. -/
def LinkPost (g : View) (old new : Option (List UInt8)) (g' : View) : Prop :=
  (Frees g.node g'.node ∨ Links g old new g') ∧ ¬ SelfLink g old new

/-- What `link` did when it returned `r`. -/
def LinkOutcome (g : View) (old new : Option (List UInt8)) (r : Int) (g' : View) : Prop :=
  Outcome g (Links g old new) r g' ∧ ¬ SelfLink g old new

theorem LinkOutcome.linkPost {old new : Option (List UInt8)} {r : Int} {g' : View}
    (h : LinkOutcome g old new r g') : LinkPost g old new g' :=
  ⟨h.1.frees_or, h.2⟩

def SysLinkStop (g : View) (old new : Option (List UInt8)) (e : Stop) : Prop :=
  CallStop g e ∨ e = .asleep ∧ SelfLink g old new

variable {E : Stop → Prop}

theorem linkBad_spec (hidle : g.Idle) (h : Inv { g with node := node, refs := [(k, i)], op := true } s)
    (hnode : g.Settled → node = upd g.node i ((g.node i).withNlink ((g.node i).nlink + 1)) ∧
      (g.node i).type ≠ 0)
    (hkeeps : Keeps g.node node) (hE : ∀ e, CallStop { g with op := true } e → E e) :
    Wp (linkBad k) s (fun r t => r = -1 ∧ CallPost g (· = g) t) E := by
  unfold linkBad
  refine (ilock_spec h (.inl List.mem_cons_self) (by simp [hidle.locks])).bind ?_ ?_
  · rintro _ t ⟨ht, -⟩
    dsimp only at ht
    rw [hidle.locks, insert_empty_eq] at ht
    simp only [wp_bind, wp_setDin]
    refine (nlink_spec ht rfl (Finset.mem_singleton_self _) (.inl List.mem_cons_self) (· - 1)).mono
      ?_ fun _ he => hE _ (.inl he)
    intro _ u hu
    simp only [wp_pure]
    refine finishSame_spec hidle hu (hkeeps.trans (.nlink node i _)) (fun hs => ?_)
      (fun _ ht => ⟨trivial, ht⟩) fun _ he => hE _ (.inl he)
    obtain ⟨rfl, -⟩ := hnode hs
    dsimp only
    rw [upd_upd, upd_same]
    unfold Node.withNlink
    dsimp only
    rw [Int16.add_sub_cancel]
    exact upd_eq_self _ _
  · rintro e ⟨rfl, h0⟩
    refine hE _ (.inr (.inr ⟨trivial, fun hwf => ?_⟩))
    obtain ⟨rfl, hty⟩ := hnode hwf.settled
    dsimp only at h0
    rw [upd_same] at h0
    exact hty h0

theorem CallPost.failed {old new : Option (List UInt8)} {t : Fs} (h : CallPost g (· = g) t)
    (hself : g.Settled → ¬ SelfLink g old new) : CallPost g (LinkOutcome g old new (-1)) t := by
  obtain ⟨g', h1, h2, h3, h4, h5⟩ := h
  refine ⟨g', h1, h2, h3, h4, fun hs hn => ?_⟩
  obtain ⟨rfl, hset⟩ := h5 hs hn
  exact ⟨⟨.failed, hself hs⟩, hset⟩

/-- The view of `link` after it counted the new link. -/
def View.counted (g : View) (i : Nat) : Nat → Node :=
  upd g.node i ((g.node i).withNlink ((g.node i).nlink + 1))

theorem View.counted_apply (g : View) (i j : Nat) :
    g.counted i j = (g.node j).withNlink (if j = i then (g.node j).nlink + 1 else (g.node j).nlink) := by
  unfold View.counted
  by_cases h : j = i
  · subst h
    rw [upd_same, if_pos rfl]
  · rw [upd_ne _ _ h, if_neg h]
    rfl

theorem View.parent_counted (g : View) (i : Nat) (r : List (Fin NINODE × Nat)) (op : Bool)
    (path : List UInt8) :
    View.parent { g with node := g.counted i, refs := r, op := op } path = g.parent path :=
  (sameNames_upd g.node i _).resolve_eq true _ _ _

theorem View.Settled.counted (hs : g.Settled) (hrefs : g.refs = []) (op : Bool) :
    View.Settled { g with node := g.counted i, refs := [(k, i)], op := op } := by
  intro j hj hty h0
  by_cases he : j = i
  · exact ⟨k, .inl (by rw [he]; exact List.mem_cons_self)⟩
  · dsimp only at hty h0
    rw [View.counted_apply] at hty h0
    rw [if_neg he] at h0
    exact View.Uses.mono (r := g.refs) (by simp [hrefs]) (hs j hj hty h0)

theorem NamexStop.counted (h : Inv { g with op := true } s) (hidle : g.Idle) {path : List UInt8} (hnode : g.Settled → node = g.counted i) {e : Stop}
    (he : NamexStop { g with node := node, refs := [(k, i)], op := true }
      (g.start path) e) : CallStop { g with op := true } e := by
  rcases he with he | ⟨rfl, he⟩ | ⟨rfl, he⟩
  · exact .inl he
  · refine .inr (.inr ⟨trivial, fun hwf => he ?_⟩)
    have hst := h.start_type hidle.inCall.toRunning hwf path
    obtain rfl := hnode hwf.settled
    refine ⟨View.Settled.counted (g := g) hwf.settled hidle.refs _, ?_, ?_⟩
    · intro j hj hdir e he h0
      simp only [View.counted_apply] at hdir he h0 ⊢
      exact hwf.noDangling j hj hdir e he h0
    · simp only [View.counted_apply]
      exact hst
  · refine .inr (.inr ⟨trivial, fun hwf => he ?_⟩)
    obtain rfl := hnode hwf.settled
    refine ⟨View.Settled.counted (g := g) hwf.settled hidle.refs _, fun j hj hdir => ?_⟩
    simp only [View.counted_apply] at hdir ⊢
    exact hwf.aligned j hj hdir

/-- The names a call of `link` found: the inode of the old one and the place of the new. -/
structure Found (g : View) (o n : List UInt8) (i d : Nat) (x : List UInt8) : Prop where
  lookup : g.lookup o = some i
  parent : g.parent n = some (d, x)
  type : (g.node i).type ≠ T_DIR ∧ (g.node i).type ≠ 0
  dir : (g.node d).type = T_DIR

variable {o n x : List UInt8} {d : Nat}

theorem Found.ne (h : Found g o n i d x) : i ≠ d := by
  rintro rfl
  exact h.type.1 h.dir

variable {e : Nat}

theorem Found.selfLink (h : Found g o n i d x) (he : (g.node d).find x = some e) :
    SelfLink g (some o) (some n) ↔ ((g.node d).ent e).inum = d := by
  constructor
  · rintro ⟨_, _, _, _, _, _, h1, h2, h3, -, h4, h5, h6⟩
    cases h1
    cases h2
    rw [h.parent] at h4
    cases h4
    rw [he] at h5
    cases h5
    exact h6
  · intro h6
    exact ⟨o, n, i, d, x, e, rfl, rfl, h.lookup, h.type.1, h.parent, he, h6⟩

theorem Found.not_selfLink (h : Found g o n i d x)
    (hf : (g.node d).find x = none) : ¬ SelfLink g (some o) (some n) := by
  rintro ⟨_, _, _, _, _, _, h1, h2, h3, -, h4, h5, -⟩
  cases h1
  cases h2
  rw [h.parent] at h4
  cases h4
  rw [hf] at h5
  cases h5

theorem Found.counted_dir (h : Found g o n i d x) : g.counted i d = g.node d := by
  rw [View.counted_apply, if_neg h.ne.symm]
  rfl

theorem Found.linked_eq (h : Found g o n i d x) :
    upd (g.counted i) d ((g.counted i d).addEnt x i) = g.linked d x i := by
  rw [h.counted_dir]
  rfl

variable {op : Bool} {locks : Finset (Fin NINODE)}

theorem View.Settled.linked (hs : g.Settled) (x : List UInt8) (hrefs : g.refs = []) (l : Fin NINODE) :
    View.Settled { g with
      node := g.linked d x i, refs := [(l, d), (k, i)], op := op, locks := locks } := by
  intro j hj hty h0
  by_cases hi : j = i
  · exact ⟨k, .inl (by rw [hi]; exact List.mem_cons_of_mem _ List.mem_cons_self)⟩
  by_cases hd : j = d
  · exact ⟨l, .inl (by rw [hd]; exact List.mem_cons_self)⟩
  unfold View.linked at hty h0
  dsimp only at hty h0
  rw [upd_ne _ _ hd, upd_ne _ _ hi] at hty h0
  exact View.Uses.mono (r := g.refs) (by simp [hrefs]) (hs j hj hty h0)

theorem Node.nlink_add_one_ne_zero {n : Node} (h : 0 ≤ n.nlink) : n.nlink + 1 ≠ 0 := by
  intro hc
  have : n.nlink = -1 := by
    have := congrArg (· - 1) hc
    simpa using this
  rw [this] at h
  exact absurd h (by decide)

variable {ip dp : Fin NINODE}

theorem Found.linkedPost (h : Found g o n i d x) (hs : g.Settled)
    (hn : 0 ≤ (g.node i).nlink) (hrefs : g.refs = []) (hfind : (g.node d).find x = none)
    (hal : (g.node d).Aligned) {node' : Nat → Node} {locks' : Finset (Fin NINODE)}
    (hnode : node = View.drop { g with
      node := g.linked d x i, refs := [(dp, d), (ip, i)], locks := locks, op := op } d [(ip, i)])
    (hnode' : node' = node ∨ node' = View.drop { g with
      node := node, refs := [(ip, i)], locks := locks', op := op } i [] ∧ (node i).type ≠ 0) :
    View.Settled { g with node := node' } ∧
      LinkOutcome g (some o) (some n) 0 { g with node := node' } := by
  have hset : View.Settled { g with node := node, refs := [(ip, i)], locks := locks', op := op } := by
    rw [hnode]
    exact (hs.linked x hrefs dp).put (List.Perm.refl _)
  have hfr : Frees (g.linked d x i) node := by
    rw [hnode]
    exact View.frees_drop _ _ _
  have hni : node i = (g.node i).withNlink ((g.node i).nlink + 1) := by
    rw [hnode, View.drop_ne h.ne]
    change upd (upd g.node i _) d _ i = _
    rw [upd_ne _ _ h.ne, upd_same]
  -- The inode has the new link, and stays.
  have hkeep : View.drop { g with
      node := node, refs := [(ip, i)], locks := locks', op := op } i [] = node := by
    refine View.drop_keep fun h0 => ?_
    dsimp only at h0
    rw [hni] at h0
    exact absurd h0 (Node.nlink_add_one_ne_zero hn)
  have hput := hset.put (k := ip) (i := i) (r := []) (List.Perm.refl _)
  rw [hkeep] at hput hnode'
  obtain rfl : node' = node := hnode'.elim id And.left
  refine ⟨?_, .done (by decide) ?_, h.not_selfLink hfind⟩
  · have hr : g = { g with refs := [] } := by rw [← hrefs]
    rw [hr]
    exact hput
  · exact ⟨o, n, i, d, x, rfl, rfl, h.lookup, h.type.1, h.type.2, h.parent, h.dir, hfind, hal, hfr⟩

/-- The part of `link` that adds the name to its directory. -/
def linkAt (ip dp : Fin NINODE) (name : List UInt8) : Kern Int := do
  ilock dp
  let r ← if (← inode dp).dev ≠ (← inode ip).dev then pure (-1)
    else dirlink dp name (← inode ip).inum
  if r < 0 then do
    iunlockput dp
    linkBad ip
  else do
    iunlockput dp
    iput ip
    endOp
    return 0

theorem linkAt_spec (hidle : g.Idle)
    (h : Inv { g with node := node, refs := [(dp, d), (ip, i)], op := true } s)
    (hdir : (node d).type = T_DIR) (hkeeps : Keeps g.node node)
    (hset : g.Settled → node = g.counted i ∧ Found g o n i d x) :
    Wp (linkAt ip dp x) s
      (fun r t => CallPost g (LinkOutcome g (some o) (some n) r) t)
      (SysLinkStop { g with op := true } (some o) (some n)) := by
  have hty : (node d).type ≠ 0 := by rw [hdir]; decide
  have hrefd : (dp, d) ∈ [(dp, d), (ip, i)] := List.mem_cons_self
  have hrefi : (ip, i) ∈ [(dp, d), (ip, i)] := List.mem_cons_of_mem _ List.mem_cons_self
  have hdp := Finset.mem_singleton_self dp
  have hilt : i < g.sb.ninodes := (h.at_lt (.inl hrefi)).2
  unfold linkAt
  refine (ilock_spec h (.inl hrefd) (by simp [hidle.locks])).bind ?_ fun _ he => absurd he.2 hty
  rintro _ t ⟨ht, -⟩
  dsimp only at ht
  rw [hidle.locks, insert_empty_eq] at ht
  simp only [wp_bind, wp_inode]
  rw [(ht.cache.slot dp (ht.ref_pos (.inl hrefd))).1, (ht.cache.slot ip (ht.ref_pos (.inl hrefi))).1,
    if_neg (not_not.mpr rfl)]
  simp only [wp_bind, wp_inode]
  rw [ht.inum_eq (.inl hrefi)]
  refine (dirlink_spec ht rfl hdp (.inl hrefd) hdir x hilt).mono ?_ ?_
  · rintro r u (⟨rfl, hfind, hal, hu⟩ | ⟨rfl, e, node', hfind, hnl, hu, hnode'⟩)
    · refine wp_ite (fun hc => absurd hc (by decide)) fun _ => ?_
      simp only [wp_bind, wp_pure]
      refine (iunlockput_spec hu rfl (List.Perm.refl _) hdp).mono ?_ fun _ he => .inl (.inl he)
      intro _ v hv
      dsimp only at hv
      rw [Finset.erase_singleton, ← hidle.locks] at hv
      refine (iput_spec hv rfl (List.Perm.refl _) (by simp [hidle.locks])).mono ?_
        fun _ he => .inl (.inl he)
      rintro _ w ⟨node', hw, hnode'⟩
      dsimp only at hw
      rw [← hidle.refs] at hw
      have hadd : Keeps node (upd node d ((node d).addEnt x i)) :=
        .upd fun hm _ => (hm d hdir).addEnt hfind i
      have hput := (View.frees_drop { g with
        node := upd node d ((node d).addEnt x i), refs := [(dp, d), (ip, i)], locks := {dp},
        op := true } d [(ip, i)]).keeps
      refine finish_spec hidle hw (hkeeps.trans (hadd.trans (hput.trans ?_))) (fun hs hn => ?_)
        fun _ => id
      · rcases hnode' with rfl | ⟨rfl, -⟩
        · exact .refl _
        · exact Frees.keeps (View.frees_drop _ _ _)
      obtain ⟨rfl, hf⟩ := hset hs
      dsimp only at hfind hal hnode'
      rw [hf.counted_dir] at hfind hal
      rw [hf.linked_eq] at hnode'
      exact hf.linkedPost hs (hn i hilt) hidle.refs hfind hal rfl hnode'
    · refine wp_ite (fun _ => ?_) fun hc => absurd (by decide) hc
      rw [wp_bind]
      refine (iunlockput_spec hu rfl (List.Perm.refl _) hdp).mono ?_ fun _ he => .inl (.inl he)
      intro _ v hv
      dsimp only at hv
      rw [Finset.erase_singleton, ← hidle.locks] at hv
      refine (linkBad_spec hidle hv (fun hs => ?_) ?_ fun _ => .inl).imp ?_
      rotate_left
      · refine hkeeps.trans (@Keeps.trans node node' _ ?_ (Frees.keeps (View.frees_drop _ _ _)))
        rcases hnode' with rfl | ⟨rfl, -⟩
        · exact .refl _
        · exact Frees.keeps (View.frees_drop _ _ _)
      rotate_left
      · obtain ⟨rfl, hf⟩ := hset hs
        refine ⟨?_, hf.type.2⟩
        have hset' : View.Settled { g with
            node := g.counted i, refs := [(dp, d), (ip, i)], locks := {dp}, op := true } :=
          fun j hj hty h0 => View.Uses.mono (r := [(ip, i)]) (fun _ => List.mem_cons_of_mem _)
            (View.Settled.counted (g := g) hs hidle.refs true j hj hty h0)
        have he : node' = g.counted i := by
          rcases hnode' with rfl | ⟨rfl, hty'⟩
          · rfl
          · exact hset'.drop_eq (h.lt_of_type hty') hty' fun _ => id
        rw [he]
        refine View.drop_keep fun h0 => ?_
        exact View.Settled.counted (g := g) (k := ip) (i := i) hs hidle.refs true d
          (h.at_lt (.inl hrefd)).2 hty h0
      · rintro _ w ⟨rfl, hw⟩
        refine hw.failed fun hs => ?_
        obtain ⟨rfl, hf⟩ := hset hs
        dsimp only at hfind hnl
        rw [hf.counted_dir] at hfind hnl
        rw [hf.selfLink hfind]
        exact fun hc => hnl ⟨dp, hdp, hc.symm ▸ .inl hrefd⟩
  · rintro x ((hx | ⟨rfl, hx⟩) | ⟨rfl, e, he, hl⟩ | ⟨rfl, -⟩)
    · exact .inl (.inl hx)
    · refine .inl (.inr (.inr ⟨trivial, fun hwf => hx ?_⟩))
      obtain ⟨rfl, hf⟩ := hset hwf.settled
      change (g.counted i d).Aligned
      rw [hf.counted_dir]
      exact hwf.aligned d (h.at_lt (.inl hrefd)).2 hf.dir
    · by_cases hwf : View.Wf { g with op := true }
      · obtain ⟨rfl, hf⟩ := hset hwf.settled
        dsimp only at he hl
        rw [hf.counted_dir] at he hl
        obtain ⟨l, hl1, hl2⟩ := hl
        rw [Finset.mem_singleton.mp hl1] at hl2
        exact .inr ⟨rfl, (hf.selfLink he).mpr
          ((ht.inum_eq hl2).symm.trans (ht.inum_eq (.inl hrefd)))⟩
      · exact .inl (.inr (.inr ⟨trivial, hwf⟩))
    · exact .inl (.inr (.inl rfl))

theorem sysLink_spec (h : Inv g s) (hidle : g.Idle) (old new : Option (List UInt8)) :
    Wp (sysLink old new) s (fun r t => CallPost g (LinkOutcome g old new r) t)
      (SysLinkStop { g with op := true } old new) := by
  have hself : ∀ {t}, Inv g t → ¬ SelfLink g old new → CallPost g (LinkOutcome g old new (-1)) t :=
    fun ht hn => ⟨g, ht, hidle.toRest, rfl, .refl _, fun hs _ => ⟨⟨.failed, hn⟩, hs⟩⟩
  unfold sysLink
  cases old with
  | none => exact wp_pure.mpr (hself h (by rintro ⟨_, _, _, _, _, _, h1, -⟩; cases h1))
  | some o =>
  cases new with
  | none => exact wp_pure.mpr (hself h (by rintro ⟨_, _, _, _, _, _, -, h1, -⟩; cases h1))
  | some n =>
  dsimp only
  refine (beginOp_spec h hidle.op _).seq ?_
  rintro _ t ⟨ht, -⟩
  have hin := hidle.inCall
  refine (namei_spec ht hin.toRunning rfl hidle.locks o).bind ?_
    fun e he => .inl (he.callStop ht hin.toRunning)
  rintro (_ | ip) u
  · rintro ⟨node, hu, hfr, hset⟩
    simp only [wp_bind, wp_pure]
    refine finish_spec hidle hu hfr.keeps (fun hs _ => ?_) fun _ => id
    obtain ⟨rfl, hl⟩ := hset hs
    refine ⟨hs, .failed, ?_⟩
    rintro ⟨_, _, _, _, _, _, h1, -, h2, -⟩
    cases h1
    rw [show g.lookup o = none from hl] at h2
    cases h2
  rintro ⟨node, i, hu, hfr, hset⟩
  dsimp only at hu ⊢
  rw [wp_bind]
  refine (lockFound_spec ht hin hu hset).mono ?_ fun _ => .inl
  rintro _ v ⟨hv, hty⟩
  have hk := Finset.mem_singleton_self ip
  have hdtype : (v.icache ip).din.type = (node i).type := by
    rw [hv.din_type hk, hv.inum_eq (.inl List.mem_cons_self)]
  simp only [wp_bind, wp_inode]
  rw [hdtype]
  refine wp_ite (fun hdir => ?_) fun hdir => ?_
  · -- A directory gets no second name.
    simp only [wp_bind, wp_pure]
    refine finishSame_spec hidle hv hfr.keeps (fun hs => (hset hs).1)
      (fun _ ht => ht.failed fun hs => ?_) fun _ he => .inl (.inl he)
    obtain ⟨rfl, hl⟩ := hset hs
    rintro ⟨_, _, _, _, _, _, h1, -, h2, h3, -⟩
    cases h1
    rw [show g.lookup o = some i from hl] at h2
    cases h2
    exact h3 hdir
  simp only [wp_bind, wp_setDin]
  refine (nlink_spec hv rfl hk (.inl List.mem_cons_self) (· + 1)).mono ?_ fun _ he => .inl (.inl he)
  intro _ w hw
  refine (iunlock_spec hw hk _).imp ?_
  rintro _ x ⟨hx, -⟩
  dsimp only at hx
  rw [Finset.erase_singleton, ← hidle.locks] at hx
  -- From here on the link is counted.
  obtain ⟨node₁, hnode₁⟩ : ∃ n₁, n₁ = upd node i { node i with nlink := (node i).nlink + 1 } :=
    ⟨_, rfl⟩
  rw [← hnode₁] at hx
  have hkeeps₁ : Keeps g.node node₁ := by
    rw [hnode₁]
    exact hfr.keeps.trans (.nlink node i _)
  have hcount : g.Settled → node₁ = g.counted i ∧ g.lookup o = some i := fun hs => by
    obtain ⟨rfl, hl⟩ := hset hs
    exact ⟨hnode₁, hl⟩
  have htype₁ : (node₁ i).type ≠ T_DIR ∧ (node₁ i).type ≠ 0 := by
    rw [hnode₁, upd_same]
    exact ⟨hdir, hty⟩
  have htypeg : g.Settled → (g.node i).type ≠ T_DIR ∧ (g.node i).type ≠ 0 := fun hs => by
    obtain ⟨h1, -⟩ := hcount hs
    rw [h1, View.counted_apply] at htype₁
    exact htype₁
  have hrun : View.Running { g with node := node₁, refs := [(ip, i)], op := true } :=
    ⟨hidle.owner, hidle.live, hidle.closed⟩
  refine (nameiparent_spec hx hrun rfl hidle.locks n).mono ?_
    fun e he => .inl (NamexStop.counted ht hidle (fun hs => (hcount hs).1) he)
  rintro (_ | ⟨dp, y⟩) z
  · rintro ⟨node₂, hz, hfr₂, hset₂⟩
    refine (linkBad_spec hidle hz (fun hs => ?_) (hkeeps₁.trans hfr₂.keeps) fun _ => .inl).imp ?_
    · obtain ⟨rfl, -⟩ := hcount hs
      exact ⟨(hset₂ (View.Settled.counted hs hidle.refs true)).1, (htypeg hs).2⟩
    · rintro _ w ⟨rfl, hw⟩
      refine hw.failed fun hs => ?_
      obtain ⟨rfl, -⟩ := hcount hs
      obtain ⟨-, hp⟩ := hset₂ (View.Settled.counted hs hidle.refs true)
      rw [View.parent_counted] at hp
      rintro ⟨_, _, _, _, _, _, -, h1, -, -, h2, -⟩
      cases h1
      rw [hp] at h2
      cases h2
  · rintro ⟨node₂, d, hz, hfr₂, hp, hdird, hset₂⟩
    refine linkAt_spec hidle hz hdird (hkeeps₁.trans hfr₂.keeps) fun hs => ?_
    obtain ⟨rfl, hl⟩ := hcount hs
    obtain rfl := hset₂ (View.Settled.counted hs hidle.refs true)
    rw [View.parent_counted] at hp
    refine ⟨rfl, hl, hp, htypeg hs, ?_⟩
    dsimp only at hdird
    rw [View.counted_apply] at hdird
    exact hdird

/-! ## `unlink` -/

/-- The directory `n` with entry `e` cleared, and one link less if the entry was
for a directory. -/
def Node.cleared (n : Node) (e : Nat) (isDir : Bool) : Node :=
  (n.setEnt e (List.replicate DESIZE 0)).withNlink (if isDir then n.nlink - 1 else n.nlink)

/-- The nodes after entry `e` of `d`, which is for `i`, was removed. -/
def View.unlinked (g : View) (d e i : Nat) : Nat → Node :=
  upd (upd g.node d ((g.node d).cleared e ((g.node i).type == T_DIR))) i
    ((g.node i).withNlink ((g.node i).nlink - 1))

/-- The call removes entry `e` of `d`, which is for `i`. -/
structure Removes (g : View) (path : List UInt8) (d e i : Nat) (x : List UInt8) : Prop where
  parent : g.parent path = some (d, x)
  dir : (g.node d).type = T_DIR
  dot : nameKey x ≠ nameKey dot
  dotdot : nameKey x ≠ nameKey dotdot
  find : (g.node d).find x = some e
  inum : ((g.node d).ent e).inum = i
  ne : i ≠ d
  type : (g.node i).type ≠ 0
  nlink : 1 ≤ (g.node i).nlink
  empty : (g.node i).type = T_DIR → (g.node i).IsEmpty

/-- The call removes a name. -/
def Unlinks (g : View) (path : Option (List UInt8)) (g' : View) : Prop :=
  ∃ p d e i x, path = some p ∧ Removes g p d e i x ∧ Frees (g.unlinked d e i) g'.node

/-- What `unlink` does. No process gets or loses a pointer. -/
def UnlinkPost (g : View) (path : Option (List UInt8)) (g' : View) : Prop :=
  (Frees g.node g'.node ∨ Unlinks g path g') ∧ ∀ j, g'.Uses j → g.Uses j

/-- What `unlink` did when it returned `r`. -/
def UnlinkOutcome (g : View) (path : Option (List UInt8)) (r : Int) (g' : View) : Prop :=
  Outcome g (Unlinks g path) r g' ∧ ∀ j, g'.Uses j → g.Uses j

theorem UnlinkOutcome.unlinkPost {path : Option (List UInt8)} {r : Int} {g' : View}
    (h : UnlinkOutcome g path r g') : UnlinkPost g path g' :=
  ⟨h.1.frees_or, h.2⟩

theorem Node.EntriesIn.clear {n : Node} {ninodes : Nat} (h : n.EntriesIn ninodes)
    (he : e < n.size / DESIZE) : (n.setEnt e (List.replicate DESIZE 0)).EntriesIn ninodes := by
  intro e' he' h0
  have hsize := Node.lt_iff.mp he
  rw [Node.size_setEnt (List.length_replicate ..), Nat.max_eq_left hsize] at he'
  by_cases hne : e' = e
  · rw [hne, Node.ent_setEnt_same (List.length_replicate ..)] at h0
    exact absurd (by decide) h0
  · rw [Node.ent_setEnt_ne (List.length_replicate ..) hne] at h0 ⊢
    exact h e' he' h0

theorem unlinkBad_spec (hidle : g.Idle) (path : Option (List UInt8))
    (h : Inv { g with node := node, refs := [(k, i)], locks := {k}, op := true } s)
    (hkeeps : Keeps g.node node) (hnode : g.Settled → node = g.node) (hE : ∀ e, e.scarce → E e) :
    Wp (unlinkBad k) s (fun r t => CallPost g (UnlinkOutcome g path r) t) E := by
  unfold unlinkBad
  simp only [wp_bind, wp_pure]
  exact finishSame_spec hidle h hkeeps hnode
    (fun _ ht => ht.imp fun _ hg => hg ▸ ⟨.failed, fun _ => id⟩) hE

/-- The part of `unlink` that clears the entry at `off` and takes a link from the directory if the
entry was for one. It goes on with `m`. -/
def clearEntry (dp : Fin NINODE) (off : Nat) (isDir : Prop) [Decidable isDir] (m : Kern Int) : Kern Int := do
  let r ← writei dp (List.replicate DESIZE 0) off
  if r ≠ (DESIZE : Int) then panic .unlinkWritei
  else do
    (if isDir then do
      setDin dp fun d => { d with nlink := d.nlink - 1 }
      iupdate dp
    else return ())
    m

def removed (ip dp : Fin NINODE) : Kern Int := do
  iunlockput dp
  setDin ip fun d => { d with nlink := d.nlink - 1 }
  iupdate ip
  iunlockput ip
  endOp
  return 0

/-- `unlink` with the directory and the inode of the entry at `off` locked. -/
def removeAt (ip dp : Fin NINODE) (off : Nat) : Kern Int := do
  let d := (← inode ip).din
  if d.nlink < 1 then panic .unlinkNlink
  else do
    let full ← if d.type = T_DIR then do pure !(← isdirempty ip) else pure false
    if full then do
      iunlockput ip
      unlinkBad dp
    else clearEntry dp off (d.type = T_DIR) (removed ip dp)

theorem clear_spec (h : Inv g s) (hop : g.op = true)
    (hdp : dp ∈ g.locks) (hat : g.At dp d) (hdir : (g.node d).type = T_DIR)
    (he : e < (g.node d).size / DESIZE) {c : Prop} [Decidable c] {isDir : Bool} (hc : c ↔ isDir = true)
    {m : Kern Int} {Q : Int → Fs → Prop} (hE : ∀ e, e.scarce → E e)
    (hm : ∀ t, Inv { g with node := upd g.node d ((g.node d).cleared e isDir) } t → Wp m t Q E) :
    Wp (clearEntry dp (DESIZE * e) c m) s Q E := by
  have hdev : (g.node d).type ≠ T_DEV := by rw [hdir]; decide
  have hlen : (List.replicate DESIZE (0 : UInt8)).length = DESIZE := List.length_replicate ..
  have hsize := Node.lt_iff.mp he
  have hmax := h.size_le hdp hat hdev
  unfold clearEntry
  refine (writei_spec h hop hdp hat hdev (List.replicate DESIZE 0) (DESIZE * e) fun _ _ =>
    (h.disk.entries d (h.at_lt hat).2 hdir).clear he).bind ?_ hE
  rw [hlen]
  rintro r t (⟨hfit, -⟩ | ⟨-, rfl, ht, -⟩)
  · exact absurd ⟨by omega, by omega⟩ hfit
  refine wp_ite (fun hc => absurd rfl hc) fun _ => ?_
  rw [wp_bind]
  cases isDir with
  | false =>
    rw [if_neg fun h => Bool.false_ne_true (hc.mp h), wp_pure]
    exact hm t ht
  | true =>
    rw [if_pos (hc.mpr rfl)]
    simp only [wp_bind, wp_setDin]
    refine (nlink_spec ht hop hdp hat (· - 1)).mono (fun _ u hu => hm u ?_) hE
    dsimp only at hu
    rw [upd_upd, upd_same] at hu
    exact hu

variable {p : List UInt8}

theorem Removes.post (h : Removes g p d e i x) (hs : g.Settled) (hrefs : g.refs = [])
    (hnode : node = View.drop { g with
      node := upd g.node d ((g.node d).cleared e ((g.node i).type == T_DIR))
      refs := [(ip, i), (dp, d)], locks := locks, op := op } d [(ip, i)]) :
    View.Settled { g with
        node := upd node i { node i with nlink := (node i).nlink - 1 }, refs := [(ip, i)] } ∧
      Frees (g.unlinked d e i) (upd node i { node i with nlink := (node i).nlink - 1 }) := by
  have hset : View.Settled { g with
      node := upd g.node d ((g.node d).cleared e ((g.node i).type == T_DIR))
      refs := [(ip, i), (dp, d)], locks := locks, op := op } := by
    intro j hj hty h0
    by_cases hd : j = d
    · exact ⟨dp, .inl (by rw [hd]; exact List.mem_cons_of_mem _ List.mem_cons_self)⟩
    · dsimp only at hty h0
      rw [upd_ne _ _ hd] at hty h0
      exact View.Uses.mono (r := g.refs) (by simp [hrefs]) (hs j hj hty h0)
  have hput := hset.put (k := dp) (i := d) (r := [(ip, i)]) (List.Perm.swap _ _ _)
  rw [← hnode] at hput
  have hni : node i = g.node i := by
    rw [hnode, View.drop_ne h.ne]
    exact upd_ne _ _ h.ne
  have hfr := View.frees_drop { g with
    node := upd g.node d ((g.node d).cleared e ((g.node i).type == T_DIR))
    refs := [(ip, i), (dp, d)], locks := locks, op := op } d [(ip, i)]
  rw [← hnode] at hfr
  constructor
  · intro j hj hty h0
    by_cases hi : j = i
    · exact ⟨ip, .inl (by rw [hi]; exact List.mem_cons_self)⟩
    · dsimp only at hty h0
      rw [upd_ne _ _ hi] at hty h0
      exact hput j hj hty h0
  · intro j
    unfold View.unlinked
    by_cases hi : j = i
    · subst hi
      rw [upd_same, upd_same, hni]
      exact .inl rfl
    · rw [upd_ne _ _ hi, upd_ne _ _ hi]
      exact hfr j

/-- The end of `unlink`: the directory is given back, and the inode loses its
link. -/
theorem removed_spec (hidle : g.Idle) {isDir : Bool} (hne : ip ≠ dp) (h : Inv { g with
      node := upd node d ((node d).cleared e isDir)
      refs := [(ip, i), (dp, d)], locks := {ip, dp}, op := true } s)
    (hkeeps : Keeps g.node (upd node d ((node d).cleared e isDir)))
    (hset : g.Settled → node = g.node ∧ isDir = ((g.node i).type == T_DIR) ∧
      Removes g p d e i x) :
    Wp (removed ip dp) s
      (fun r t => CallPost g (UnlinkOutcome g (some p) r) t) (CallStop { g with op := true }) := by
  have hdp : dp ∈ ({ip, dp} : Finset (Fin NINODE)) :=
    Finset.mem_insert_of_mem (Finset.mem_singleton_self _)
  have herase : ({ip, dp} : Finset (Fin NINODE)).erase dp = {ip} := by
    rw [Finset.erase_insert_of_ne hne, Finset.erase_singleton, insert_empty_eq]
  simp only [removed, wp_bind, wp_setDin, wp_pure]
  refine (iunlockput_spec h rfl (List.Perm.swap _ _ _) hdp).mono ?_ fun _ => .inl
  intro _ t ht
  dsimp only at ht
  rw [herase] at ht
  refine (nlink_spec ht rfl (Finset.mem_singleton_self _) (.inl List.mem_cons_self) (· - 1)).mono ?_
    fun _ => .inl
  intro _ u hu
  refine finishPut_spec hidle hu (hkeeps.trans (Keeps.trans (Frees.keeps ?_) (.nlink _ i _)))
    (fun hs _ => ?_) (fun _ => id) fun _ => .inl
  · exact View.frees_drop _ _ _
  obtain ⟨rfl, rfl, hr⟩ := hset hs
  obtain ⟨h1, h2⟩ := hr.post hs hidle.refs rfl
  exact ⟨h1, fun _ hf => ⟨.done (by decide) ⟨p, d, e, i, x, rfl, hr, h2.trans hf⟩, fun _ => id⟩⟩

theorem Wf.find_ne (hwf : g.Wf) (hd : d < g.sb.ninodes)
    (hdir : (g.node d).type = T_DIR) (hx : ¬ (namecmp x dot = true ∨ namecmp x dotdot = true))
    (hfind : (g.node d).find x = some e) :
    ((g.node d).ent e).inum ≠ d ∧ 1 ≤ (g.node ((g.node d).ent e).inum).nlink := by
  obtain ⟨h1, h2, h3⟩ := Node.find_some hfind
  simp only [namecmp_iff, not_or] at hx
  exact hwf.named d hd hdir e h1 h2 (h3 ▸ hx.1) (h3 ▸ hx.2)

/-- Removing the entry `e` that the code has found in the directory `d`, with both
inodes locked. -/
theorem removeAt_spec (hidle : g.Idle) (hne : ip ≠ dp) (hid : i ≠ d)
    (h : Inv { g with node := node, refs := [(ip, i), (dp, d)], locks := {ip, dp}, op := true } s)
    (hdir : (node d).type = T_DIR) (hx : ¬ (namecmp x dot = true ∨ namecmp x dotdot = true))
    (hfind : (node d).find x = some e) (hinum : ((node d).ent e).inum = i)
    (hkeeps : Keeps g.node node) (hset : g.Settled → node = g.node ∧ g.parent p = some (d, x)) :
    Wp (removeAt ip dp (DESIZE * e)) s
      (fun r t => CallPost g (UnlinkOutcome g (some p) r) t) (CallStop { g with op := true }) := by
  have hip : ip ∈ ({ip, dp} : Finset (Fin NINODE)) := Finset.mem_insert_self _ _
  have hdp : dp ∈ ({ip, dp} : Finset (Fin NINODE)) :=
    Finset.mem_insert_of_mem (Finset.mem_singleton_self _)
  have hati : View.At { g with
      node := node, refs := [(ip, i), (dp, d)], locks := {ip, dp}, op := true } ip i :=
    .inl List.mem_cons_self
  have hatd : View.At { g with
      node := node, refs := [(ip, i), (dp, d)], locks := {ip, dp}, op := true } dp d :=
    .inl (List.mem_cons_of_mem _ List.mem_cons_self)
  have hdlt := (h.at_lt hatd).2
  have hty : (node i).type ≠ 0 := h.inum_eq hati ▸ h.locked_type hip
  have hdtype : (s.icache ip).din.type = (node i).type := by
    rw [h.din_type hip, h.inum_eq hati]
  have hdnlink : (s.icache ip).din.nlink = (node i).nlink := by
    rw [h.din_nlink hip, h.inum_eq hati]
  simp only [removeAt, wp_bind, wp_inode]
  rw [hdtype, hdnlink]
  refine wp_ite (fun hlt => wp_panic.mpr (.inr (.inr ⟨trivial, fun hwf => ?_⟩))) fun hlt => ?_
  · obtain ⟨rfl, -⟩ := hset hwf.settled
    have := (Wf.find_ne (g := g) ⟨hwf.settled, hwf.noDangling, hwf.aligned, hwf.root, hwf.named⟩
      hdlt hdir hx hfind).2
    rw [hinum] at this
    exact absurd hlt (Int16.not_lt.mpr this)
  -- What removing the entry needs, if the inode can go.
  have hgo : ((node i).type = T_DIR → (node i).IsEmpty) →
      g.Settled → Removes g p d e i x := by
    intro hempty hs
    obtain ⟨rfl, hp⟩ := hset hs
    simp only [namecmp_iff, not_or] at hx
    exact ⟨hp, hdir, hx.1, hx.2, hfind, hinum, hid, hty, Int16.not_lt.mp hlt, hempty⟩
  have hcleared : Keeps node (upd node d ((node d).cleared e ((node i).type == T_DIR))) :=
    .upd fun hm _ =>
      have hmap := (hm d hdir).clear (Node.find_some hfind).1
      ⟨hmap.aligned, hmap.unique⟩
  have hclear : ∀ {t : Fs}, t = s →
      ((node i).type = T_DIR → (node i).IsEmpty) →
      Wp (clearEntry dp (DESIZE * e) ((node i).type = T_DIR) (removed ip dp)) t
        (fun r t => CallPost g (UnlinkOutcome g (some p) r) t) (CallStop { g with op := true }) := by
    rintro t rfl hempty
    exact clear_spec h rfl hdp hatd hdir (Node.find_some hfind).1 beq_iff_eq.symm (fun _ => .inl) fun u hu =>
      removed_spec (p := p) (x := x) hidle hne hu (hkeeps.trans hcleared) fun hs => by
        obtain ⟨rfl, -⟩ := hset hs
        exact ⟨rfl, rfl, hgo hempty hs⟩
  by_cases hd : (node i).type = T_DIR
  · rw [if_pos hd, wp_bind]
    refine (isdirempty_spec h hip hati hd).mono ?_ ?_
    · rintro b t ⟨hts, hb⟩
      rw [wp_bind, wp_pure]
      cases b with
      | true =>
        refine wp_ite (fun hc => by cases hc) fun _ => hclear hts fun _ => hb.mp rfl
      | false =>
        refine wp_ite (fun _ => ?_) fun hc => absurd rfl hc
        rw [hts, wp_bind]
        refine (iunlockput_spec h rfl (List.Perm.refl _) hip).mono ?_ fun _ => .inl
        intro _ u hu
        dsimp only at hu
        rw [Finset.erase_insert (by simpa using hne)] at hu
        refine unlinkBad_spec hidle (some p) hu (hkeeps.trans (Frees.keeps ?_)) (fun hs => ?_)
          fun _ => .inl
        · exact View.frees_drop _ _ _
        obtain ⟨rfl, -⟩ := hset hs
        exact View.drop_keep fun h0 => View.Uses.mono (r := g.refs) (by simp [hidle.refs])
          (hs i (h.at_lt hati).2 hty h0)
    · rintro y ⟨rfl, hal⟩
      refine .inr (.inr ⟨trivial, fun hwf => hal ?_⟩)
      obtain ⟨rfl, -⟩ := hset hwf.settled
      exact hwf.aligned i (h.at_lt hati).2 hd
  · rw [if_neg hd, wp_bind, wp_pure]
    exact wp_ite (fun hc => by cases hc) fun _ => hclear rfl fun hc => absurd hc hd

theorem sysUnlink_spec (h : Inv g s) (hidle : g.Idle) (path : Option (List UInt8)) :
    Wp (sysUnlink path) s (fun r t => CallPost g (UnlinkOutcome g path r) t)
      (CallStop { g with op := true }) := by
  unfold sysUnlink
  cases path with
  | none =>
    exact wp_pure.mpr ⟨g, h, hidle.toRest, rfl, .refl _, fun hs _ =>
      ⟨⟨.failed, fun _ => id⟩, hs⟩⟩
  | some p =>
  dsimp only
  refine (beginOp_spec h hidle.op _).seq ?_
  rintro _ t ⟨ht, -⟩
  have hin := hidle.inCall
  refine (nameiparent_spec ht hin.toRunning rfl hidle.locks p).bind ?_
    fun e he => he.callStop ht hin.toRunning
  rintro (_ | ⟨dp, x⟩) u
  · rintro ⟨node, hu, hfr, hset⟩
    simp only [wp_bind, wp_pure]
    refine finish_spec hidle hu hfr.keeps (fun hs _ => ?_) fun _ => id
    obtain ⟨rfl, -⟩ := hset hs
    exact ⟨hs, .failed, fun _ => id⟩
  rintro ⟨node, d, hu, hfr, hparent, hdir, hsame⟩
  have hset : g.Settled → node = g.node ∧ g.parent p = some (d, x) := fun hs => ⟨hsame hs, hparent⟩
  dsimp only at hu ⊢
  rw [hidle.refs] at hu
  have hty : (node d).type ≠ 0 := by rw [hdir]; decide
  have hdlt : d < g.sb.ninodes := (hu.at_lt (.inl List.mem_cons_self)).2
  rw [wp_bind]
  refine (ilock_spec hu (.inl List.mem_cons_self) (by simp [hidle.locks])).mono ?_
    fun _ he => absurd he.2 hty
  rintro _ v ⟨hv, -⟩
  dsimp only at hv
  rw [hidle.locks, insert_empty_eq] at hv
  have hdp := Finset.mem_singleton_self dp
  have hbad : Wp (unlinkBad dp) v (fun r t => CallPost g (UnlinkOutcome g (some p) r) t)
      (CallStop { g with op := true }) :=
    unlinkBad_spec hidle (some p) hv hfr.keeps (fun hs => (hset hs).1) fun _ => .inl
  refine wp_ite (fun _ => hbad) fun hx => ?_
  rw [wp_bind]
  refine (dirlookup_spec hv hdp (.inl List.mem_cons_self) hdir x).mono ?_ ?_
  · rintro (_ | ⟨ip, off⟩) w
    · rintro ⟨hw, -, -⟩
      rw [hw]
      exact hbad
    rintro ⟨e, hfind, rfl, hw⟩
    dsimp only at hfind hw ⊢
    obtain ⟨i, hi⟩ : ∃ i, i = ((node d).ent e).inum := ⟨_, rfl⟩
    rw [← hi] at hw
    have hnamed : View.Wf { g with op := true } → node = g.node ∧ i ≠ d ∧ (node i).type ≠ 0 := by
      intro hwf
      obtain ⟨rfl, -⟩ := hset hwf.settled
      obtain ⟨h1, h2, -⟩ := Node.find_some hfind
      rw [hi]
      exact ⟨rfl, (Wf.find_ne hwf hdlt hdir hx hfind).1, hwf.noDangling d hdlt hdir e h1 h2⟩
    rw [wp_bind]
    by_cases hips : ip = dp
    · -- The entry is for the directory itself, which is locked already.
      refine (ilock_asleep hw (by rw [hips]; exact hdp)).mono (fun _ _ hf => hf) fun y hy => ?_
      refine .inr (.inr ⟨by rw [hy]; trivial, fun hwf => (hnamed hwf).2.1 ?_⟩)
      rw [hips] at hw
      exact (hw.inum_eq (.inl List.mem_cons_self)).symm.trans
        (hw.inum_eq (.inl (List.mem_cons_of_mem _ List.mem_cons_self)))
    · refine (ilock_spec hw (.inl List.mem_cons_self) (by simpa using hips)).mono ?_ ?_
      · rintro _ y ⟨hy, -⟩
        have hid : i ≠ d := fun hc => by
          refine hips (hw.cache.unique ip dp (hw.ref_pos (.inl List.mem_cons_self))
            (hw.ref_pos (.inl (List.mem_cons_of_mem _ List.mem_cons_self))) ?_)
          rw [hw.inum_eq (.inl List.mem_cons_self),
            hw.inum_eq (.inl (List.mem_cons_of_mem _ List.mem_cons_self)), hc]
        exact removeAt_spec hidle hips hid hy hdir hx hfind hi.symm hfr.keeps hset
      · rintro y ⟨rfl, h0⟩
        exact .inr (.inr ⟨trivial, fun hwf => (hnamed hwf).2.2 h0⟩)
  · rintro y (hy | ⟨rfl, hal⟩)
    · exact .inl hy
    · refine .inr (.inr ⟨trivial, fun hwf => hal ?_⟩)
      obtain ⟨rfl, -⟩ := hset hwf.settled
      exact hwf.aligned d hdlt hdir

end Xv6
