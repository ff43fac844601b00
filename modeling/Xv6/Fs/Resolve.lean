import Xv6.Fs.SelfLock

/-!
# What a path means

The components of a path are the non-empty pieces between its slashes, and a path
denotes the inode its components lead to, each looked up in the directory before.
`namei` and `nameiparent` compute this, and keep of all the references and locks
they take on the way only the reference they return.

They hold at most two cache entries at a time, so with two entries free they
always return.
-/

namespace Xv6

open Hoare Table

variable {g : View} {s : Fs} {k : Fin NINODE} {i : Nat}

/-! ## Components -/

/-- The non-empty pieces between slashes, each cut to `DIRSIZ` bytes. -/
def components (path : List UInt8) : List (List UInt8) :=
  ((path.splitOn slash).filter (· ≠ [])).map (·.take DIRSIZ)

theorem components_slash (p : List UInt8) : components (slash :: p) = components p := by
  have h : (slash :: p).splitOn slash = [] :: p.splitOn slash :=
    List.splitOnP_append_cons [] p (beq_self_eq_true slash)
  unfold components
  rw [h, List.filter_cons_of_neg (by simp)]

theorem components_name {a : List UInt8} (ha : a ≠ []) (hs : slash ∉ a) :
    components a = [a.take DIRSIZ] := by
  have h : a.splitOn slash = [a] := List.splitOnP_eq_singleton fun x hx => by
    rw [beq_eq_false_iff_ne]
    rintro rfl
    exact hs hx
  unfold components
  rw [h, List.filter_cons_of_pos (by simpa using ha)]
  rfl

theorem components_append (a b : List UInt8) :
    components (a ++ slash :: b) = components a ++ components b := by
  have h : (a ++ slash :: b).splitOn slash = a.splitOn slash ++ b.splitOn slash :=
    List.splitOnP_append_cons a b (beq_self_eq_true slash)
  unfold components
  rw [h, List.filter_append, List.map_append]

theorem components_dropWhile (p : List UInt8) :
    components (p.dropWhile fun x => decide (x = slash)) = components p := by
  induction p with
  | nil => rfl
  | cons c p ih =>
    by_cases hc : c = slash
    · rw [List.dropWhile_cons_of_pos (by simpa using hc), ih, hc, components_slash]
    · rw [List.dropWhile_cons_of_neg (by simpa using hc)]

theorem components_skipelem {path rest name : List UInt8} (h : skipelem path = some (rest, name)) :
    components path = name :: components rest := by
  unfold skipelem at h
  split at h
  next => cases h
  next c p hp =>
    have hc : c ≠ slash := by
      have := List.head?_dropWhile_not (fun x => decide (x = slash)) path
      rw [hp] at this
      simpa using this
    rw [Option.some.injEq, Prod.mk.injEq] at h
    obtain ⟨rfl, rfl⟩ := h
    rw [← components_dropWhile path, hp, components_dropWhile]
    generalize ha : (c :: p).takeWhile (fun x => decide (x ≠ slash)) = a
    generalize hr : (c :: p).dropWhile (fun x => decide (x ≠ slash)) = r
    have hsplit : c :: p = a ++ r := by rw [← ha, ← hr, List.takeWhile_append_dropWhile]
    have hne : a ≠ [] := by
      rw [← ha, List.takeWhile_cons_of_pos (by simpa using hc)]
      exact List.cons_ne_nil _ _
    have hs : slash ∉ a := by
      intro hm
      rw [← ha] at hm
      simpa using List.mem_takeWhile_imp hm
    cases r with
    | nil => rw [hsplit, List.append_nil, components_name hne hs]; rfl
    | cons d r =>
      have hd : d = slash := by
        have := List.head?_dropWhile_not (fun x => decide (x ≠ slash)) (c :: p)
        rw [hr] at this
        simpa using this
      rw [hsplit, hd, components_append, components_name hne hs, components_slash]
      rfl

theorem components_eq_nil {path : List UInt8} (h : skipelem path = none) : components path = [] := by
  unfold skipelem at h
  split at h
  next hp => rw [← components_dropWhile path, hp]; rfl
  next => cases h

theorem elems_eq_components : ∀ path : List UInt8, elems path = components path := by
  intro path
  induction hn : path.length using Nat.strong_induction_on generalizing path with
  | _ n ih =>
    cases hs : skipelem path with
    | none => rw [elems_none hs, components_eq_nil hs]
    | some q =>
      obtain ⟨rest, name⟩ := q
      rw [elems_some hs, components_skipelem hs, ih _ (hn ▸ skipelem_length hs) rest rfl]

/-! ## Looking names up in turn -/

/-- The inode reached from `i` by looking the names up in turn. -/
def walk (node : Nat → Node) : Nat → List (List UInt8) → Option Nat
  | i, [] => some i
  | i, x :: xs =>
    if (node i).type = T_DIR then
      ((node i).find x).bind fun e => walk node ((node i).ent e).inum xs
    else none

theorem resolve_eq_walk (node : Nat → Node) : ∀ (names : List (List UInt8)) (i : Nat)
    (name : List UInt8), (resolve node false i names name).map Prod.fst = walk node i names
  | [], _, _ => rfl
  | x :: xs, i, name => by
    rw [resolve, walk]
    split
    next =>
      rw [if_neg fun hc => by cases hc.1]
      cases (node i).find x with
      | none => rfl
      | some e => exact resolve_eq_walk node xs _ x
    next => rfl

theorem resolve_parent (node : Nat → Node) : ∀ (names : List (List UInt8)) (i : Nat)
    (name : List UInt8) (j : Nat) (x : List UInt8), resolve node true i names name = some (j, x) ↔
      names.getLast? = some x ∧ walk node i names.dropLast = some j ∧ (node j).type = T_DIR
  | [], _, _, _, _ => by simp [resolve]
  | [y], i, name, j, x => by
    rw [resolve]
    by_cases hdir : (node i).type = T_DIR
    · rw [if_pos hdir, if_pos ⟨rfl, rfl⟩]
      simp only [List.getLast?_singleton, List.dropLast_singleton, walk, Option.some.injEq,
        Prod.mk.injEq]
      constructor
      · rintro ⟨rfl, rfl⟩
        exact ⟨rfl, rfl, hdir⟩
      · rintro ⟨rfl, rfl, -⟩
        exact ⟨rfl, rfl⟩
    · rw [if_neg hdir]
      simp only [List.dropLast_singleton, walk, Option.some.injEq]
      constructor
      · intro hc
        cases hc
      · rintro ⟨-, rfl, hc⟩
        exact absurd hc hdir
  | y :: z :: names, i, name, j, x => by
    rw [resolve, List.getLast?_cons_cons, List.dropLast_cons_cons, walk]
    by_cases hdir : (node i).type = T_DIR
    · rw [if_pos hdir, if_pos hdir, if_neg fun hc => by cases hc.2]
      cases (node i).find y with
      | none => simp
      | some e => exact resolve_parent node (z :: names) _ y j x
    · rw [if_neg hdir, if_neg hdir]
      simp

/-! ## Room in the inode cache -/

/-- What following a path relies on. -/
structure View.Walkable (g : View) : Prop where
  settled : g.Settled
  noDangling : g.NoDangling
  aligned : g.Aligned
  root : (g.node ROOTINO).type ≠ 0

theorem View.Wf.walkable (h : g.Wf) : g.Walkable := ⟨h.settled, h.noDangling, h.aligned, h.root⟩

/-- Two cache entries are free. -/
def View.Room (g : View) : Prop :=
  ∃ k l : Fin NINODE, k ≠ l ∧ g.owner.holds k + countRefs g.refs k = 0 ∧
    g.owner.holds l + countRefs g.refs l = 0

/-- The inode cache is full, or has one entry left. -/
def View.Crowded (g : View) (e : Stop) : Prop := e = .panic .igetNoInodes ∧ ¬ g.Room

theorem iget_full (dev inum : Nat) : Wp (iget dev inum) s (fun _ _ => True)
    fun e => e = .panic .igetNoInodes ∧ ∀ k, 0 < (s.icache k).ref := by
  unfold iget
  rw [wp_bind, wp_get]
  split
  · simp only [wp_bind, wp_setInode, wp_pure]
  · split
    · simp only [wp_bind, wp_setInode, wp_pure]
    next hnone =>
      refine wp_panic.mpr ⟨rfl, fun k => ?_⟩
      have := Scan.firstFin_none hnone k
      rw [decide_eq_false_iff_not] at this
      omega

theorem Inv.not_full {L : Finset (Fin NINODE)} (h : Inv { g with refs := (k, i) :: g.refs, locks := L } s)
    (hfull : ∀ l, 0 < (s.icache l).ref) : ¬ g.Room := by
  rintro ⟨l, m, hne, hl, hm⟩
  have hfree : ∀ x, x ≠ k → g.owner.holds x + countRefs g.refs x = 0 → False := by
    intro x hx h0
    have href := h.cache.ref_eq x
    have hpos := hfull x
    rw [countRefs_cons, if_neg hx] at href
    change (s.icache x).ref = g.owner.holds x + (countRefs g.refs x + 0) at href
    omega
  by_cases hk : l = k
  · exact hfree m (fun hc => hne (hk.trans hc.symm)) hm
  · exact hfree l hk hl

theorem crowded_bind {α β : Type} {m : Kern α} {f : α → Kern β} {P : α → Fs → Prop}
    {E : Stop → Prop} (hm : Wp m s P E) (hc : Wp m s (fun _ _ => True) g.Crowded)
    (hf : ∀ a t, P a t → Wp (f a) t (fun _ _ => True) g.Crowded) :
    Wp (m >>= f) s (fun _ _ => True) g.Crowded :=
  (hm.and hc).bind (fun a t ht => hf a t ht.1) fun _ he => he.2

theorem dirlookupFrom_crowded (h : Inv { g with refs := (k, i) :: g.refs, locks := {k} } s)
    (hdir : (g.node i).type = T_DIR) (hal : (g.node i).Aligned) (name : List UInt8) :
    ∀ (fuel e : Nat), e ≤ (g.node i).size / DESIZE →
      Wp (dirlookupFrom k name fuel (DESIZE * e)) s (fun _ _ => True) g.Crowded
  | 0, _, _ => wp_pure.mpr trivial
  | fuel + 1, e, he => by
    have hl : k ∈ ({k} : Finset (Fin NINODE)) := Finset.mem_singleton_self k
    have hat : View.At { g with refs := (k, i) :: g.refs, locks := {k} } k i :=
      .inl List.mem_cons_self
    unfold dirlookupFrom
    simp only [wp_bind, wp_inode]
    rw [h.dir_size hl hat]
    refine wp_ite (fun hlt => ?_) fun _ => wp_pure.mpr trivial
    rw [wp_bind]
    refine (readEnt_spec h hl hat hdir hlt _).imp ?_
    rintro ⟨r, bs⟩ t ⟨hts, hr⟩
    rw [hts]
    split at hr
    next hin =>
      refine wp_ite (fun hc => absurd hr.1 hc) fun _ => wp_ite (fun _ => ?_) fun _ => ?_
      · refine (iget_full _ _).bind (fun _ _ _ => wp_pure.mpr trivial) ?_
        rintro x ⟨hx, hfull⟩
        exact ⟨hx, h.not_full hfull⟩
      · exact dirlookupFrom_crowded h hdir hal name fuel (e + 1) hin
    next => exact absurd hal hr.2

theorem dirlookup_crowded (h : Inv { g with refs := (k, i) :: g.refs, locks := {k} } s)
    (hdir : (g.node i).type = T_DIR) (hal : (g.node i).Aligned) (name : List UInt8) :
    Wp (dirlookup k name) s (fun _ _ => True) g.Crowded := by
  have hl : k ∈ ({k} : Finset (Fin NINODE)) := Finset.mem_singleton_self k
  have hat : View.At { g with refs := (k, i) :: g.refs, locks := {k} } k i :=
    .inl List.mem_cons_self
  have htype : (s.icache k).din.type = T_DIR := by
    rw [h.din_type hl, h.inum_eq hat]
    exact hdir
  unfold dirlookup
  simp only [wp_bind, wp_inode]
  exact wp_ite (fun hc => absurd htype hc) fun _ =>
    dirlookupFrom_crowded h hdir hal name _ 0 (Nat.zero_le _)

theorem iunlockput_settled {r : List (Fin NINODE × Nat)} (hset : g.Settled)
    (h : Inv { g with refs := r, locks := {k} } s) {r' : List (Fin NINODE × Nat)}
    (hp : r.Perm ((k, i) :: r')) (hsub : ∀ x ∈ g.refs, x ∈ r') (hlk : g.locks = ∅)
    (E : Stop → Prop) :
    Wp (iunlockput k) s (fun _ t => Inv { g with refs := r' } t) E := by
  have hl : k ∈ ({k} : Finset (Fin NINODE)) := Finset.mem_singleton_self k
  have hat : View.At { g with refs := r, locks := {k} } k i :=
    .inl (hp.mem_iff.mpr List.mem_cons_self)
  unfold iunlockput
  refine (iunlock_spec h hl _).seq ?_
  rintro _ t ⟨ht, -, -⟩
  dsimp only at ht
  rw [Finset.erase_singleton, ← hlk] at ht
  refine iput_keep ht hp (by simp [hlk]) (fun _ h0 => ?_) E
  exact View.Uses.mono hsub (hset i (h.at_lt hat).2 (h.inum_eq hat ▸ h.locked_type hl) h0)

/-- Following a path on a well-formed file system stops only for want of cache
entries. -/
theorem namexFrom_crowded (hwf : g.Walkable) (hlk : g.locks = ∅) (parent : Bool) :
    ∀ (fuel : Nat) (s : Fs) (k : Fin NINODE) (i : Nat) (path name : List UInt8),
    (g.node i).type ≠ 0 → Inv { g with refs := (k, i) :: g.refs } s →
    Wp (namexFrom parent fuel k path name) s (fun _ _ => True) g.Crowded
  | 0, s, _, _, _, _, _, _ => wp_pure.mpr trivial
  | fuel + 1, s, k, i, path, name, hty, h => by
    have hk : k ∉ g.locks := by simp [hlk]
    have hat : View.At { g with refs := (k, i) :: g.refs } k i := .inl List.mem_cons_self
    have hi := (h.at_lt hat).2
    unfold namexFrom
    split
    next =>
      refine wp_ite (fun _ => ?_) fun _ => wp_pure.mpr trivial
      exact (iput_keep h (List.Perm.refl _) hk (fun _ h0 => hwf.settled i hi hty h0) _).seq
        (fun _ _ _ => wp_pure.mpr trivial)
    next rest x hs =>
      have hl : k ∈ ({k} : Finset (Fin NINODE)) := Finset.mem_singleton_self k
      rw [wp_bind]
      refine (ilock_spec h hat hk).mono ?_ fun e he => absurd he.2 hty
      rintro _ t ⟨ht, -⟩
      dsimp only at ht
      rw [hlk, insert_empty_eq] at ht
      have hdtype : (t.icache k).din.type = (g.node i).type := by
        rw [ht.din_type hl, ht.inum_eq (.inl List.mem_cons_self)]
      have hput : Wp (do iunlockput k; return none : Kern (Option (Fin NINODE × List UInt8))) t
          (fun _ _ => True) g.Crowded :=
        (iunlockput_settled hwf.settled ht (List.Perm.refl _) (fun _ hx => hx) hlk _).seq
          (fun _ _ _ => wp_pure.mpr trivial)
      simp only [wp_bind, wp_inode]
      rw [hdtype]
      refine wp_ite (fun _ => hput) fun hdir => wp_ite (fun _ => ?_) fun _ => ?_
      · exact (iunlock_spec ht hl _).seq (fun _ _ _ => wp_pure.mpr trivial)
      have hdir' := not_not.mp hdir
      refine crowded_bind (dirlookup_spec ht hl (.inl List.mem_cons_self) hdir' x)
        (dirlookup_crowded ht hdir' (hwf.aligned i hi hdir') x) ?_
      rintro (_ | ⟨next, off⟩) u
      · rintro ⟨hu, -⟩
        rw [hu]
        exact hput
      · rintro ⟨e, hfind, -, hu⟩
        dsimp only at hfind hu ⊢
        have hnext := hwf.noDangling i hi hdir' e (Node.find_some hfind).1
          (Node.find_some hfind).2.1
        exact (iunlockput_settled hwf.settled hu (List.Perm.swap _ _ _)
          (fun _ => List.mem_cons_of_mem _) hlk _).seq (fun _ v hv =>
            namexFrom_crowded hwf hlk parent fuel v next _ rest x hnext hv)

theorem namex_crowded (h : Inv g s) (hrun : g.Running) (hlk : g.locks = ∅) (hwf : g.Walkable)
    (path : List UInt8) (parent : Bool) : Wp (namex path parent) s (fun _ _ => True) g.Crowded := by
  unfold namex
  by_cases hp : path.head? = some slash
  · simp only [if_pos hp]
    refine crowded_bind (iget_spec h ⟨Nat.one_pos, h.geom.root_lt⟩) ?_ fun k t ht =>
      namexFrom_crowded hwf hlk parent _ t k _ path [] hwf.root ht
    refine (iget_full _ _).mono (fun _ _ _ => trivial) fun e he => ⟨he.1, ?_⟩
    rintro ⟨l, -, -, hl, -⟩
    have := h.cache.ref_eq l
    have := he.2 l
    omega
  · simp only [if_neg hp, wp_bind, wp_myproc]
    have hcwd : (s.proc s.cur).cwd = (g.user.proc g.cur).cwd := by rw [← h.user, h.cur]; rfl
    rw [hcwd]
    refine (idup_spec h hrun.at_cwd _).imp ?_
    rintro k t ⟨rfl, ht⟩
    exact namexFrom_crowded hwf hlk parent _ t _ _ path []
      (h.cache.held _ hrun.holds_cwd).2.1 ht

/-! ## What a path denotes -/

/-- What `namei` does: it returns the inode the components lead to, with one
reference to it, or nothing if they lead nowhere. -/
def NameiReturns (g : View) (path : List UInt8) : Option (Fin NINODE) → Fs → Prop
  | none, t => walk g.node (g.start path) (components path) = none ∧ Inv g t
  | some k, t => ∃ i, walk g.node (g.start path) (components path) = some i ∧
      Inv { g with refs := (k, i) :: g.refs } t

/-- The components of the path but the last lead to the directory `i`. -/
def View.ParentIs (g : View) (path : List UInt8) (i : Nat) : Prop :=
  components path ≠ [] ∧ walk g.node (g.start path) (components path).dropLast = some i ∧
    (g.node i).type = T_DIR

/-- What `nameiparent` does: it returns the directory that all components but the
last lead to, with one reference to it, and the last component. -/
def ParentReturns (g : View) (path : List UInt8) : Option (Fin NINODE × List UInt8) → Fs → Prop
  | none, t => (∀ i, ¬ g.ParentIs path i) ∧ Inv g t
  | some (k, name), t => ∃ i, g.ParentIs path i ∧ (components path).getLast? = some name ∧
      Inv { g with refs := (k, i) :: g.refs } t

theorem View.parent_eq_some {path name : List UInt8} : g.parent path = some (i, name) ↔
    g.ParentIs path i ∧ (components path).getLast? = some name := by
  unfold View.parent View.ParentIs
  rw [resolve_parent, elems_eq_components]
  constructor
  · rintro ⟨hl, hw⟩
    refine ⟨⟨fun hc => ?_, hw⟩, hl⟩
    rw [hc] at hl
    cases hl
  · rintro ⟨⟨-, hw⟩, hl⟩
    exact ⟨hl, hw⟩

theorem View.parent_eq_none {path : List UInt8} (h : g.parent path = none) : ¬ g.ParentIs path i := by
  intro hp
  have := View.parent_eq_some.mpr ⟨hp, List.getLast?_eq_some_getLast hp.1⟩
  rw [h] at this
  cases this

theorem namei_returns (h : Inv g s) (hrun : g.Running) (hop : g.op = true) (hlk : g.locks = ∅)
    (hwf : g.Walkable) (path : List UInt8) : Wp (namei path) s (NameiReturns g path) g.Crowded := by
  have hcr : Wp (namei path) s (fun _ _ => True) g.Crowded :=
    (namex_crowded h hrun hlk hwf path false).seq (fun _ _ _ => wp_pure.mpr trivial)
  have hwalk : g.lookup path = walk g.node (g.start path) (components path) := by
    rw [View.lookup, resolve_eq_walk, elems_eq_components]
  refine ((namei_spec h hrun hop hlk path).and hcr).mono ?_ fun _ he => he.2
  rintro (_ | k) t ⟨hpost, -⟩
  · obtain ⟨node, ht, -, hset⟩ := hpost
    obtain ⟨rfl, hnone⟩ := hset hwf.settled
    exact ⟨hwalk ▸ hnone, ht⟩
  · obtain ⟨node, i, ht, -, hset⟩ := hpost
    obtain ⟨rfl, hsome⟩ := hset hwf.settled
    exact ⟨i, hwalk ▸ hsome, ht⟩

theorem nameiparent_returns (h : Inv g s) (hrun : g.Running) (hop : g.op = true)
    (hlk : g.locks = ∅) (hwf : g.Walkable) (path : List UInt8) :
    Wp (nameiparent path) s (ParentReturns g path) g.Crowded := by
  refine ((nameiparent_spec h hrun hop hlk path).and
    (namex_crowded h hrun hlk hwf path true)).mono ?_ fun _ he => he.2
  rintro (_ | ⟨k, name⟩) t ⟨hpost, -⟩
  · obtain ⟨node, ht, -, hset⟩ := hpost
    obtain ⟨rfl, hnone⟩ := hset hwf.settled
    exact ⟨fun i => View.parent_eq_none hnone, ht⟩
  · obtain ⟨node, i, ht, -, hsome, -, hset⟩ := hpost
    obtain rfl := hset hwf.settled
    obtain ⟨hp, hl⟩ := View.parent_eq_some.mp hsome
    exact ⟨i, hp, hl, ht⟩

/-- Path resolution on a well-formed file system. With two cache entries free it
returns. -/
theorem path_resolution (h : Inv g s) (hrun : g.Running) (hop : g.op = true) (hlk : g.locks = ∅)
    (hwf : g.Wf) (path : List UInt8) : Wp (namei path) s (NameiReturns g path) g.Crowded ∧
      Wp (nameiparent path) s (ParentReturns g path) g.Crowded :=
  ⟨namei_returns h hrun hop hlk hwf.walkable path,
    nameiparent_returns h hrun hop hlk hwf.walkable path⟩

namespace Tiny

/-- The path `"//x/"`. -/
def slashesX : List UInt8 := [slash, slash, 120, slash]

/-- Two cache entries are free. -/
def roomy (s : Fs) : Bool := decide ((s.icache 8).ref = 0) && decide ((s.icache 9).ref = 0)

/-- The path `"//x/"` denotes the file `x`, and its parent is the root. -/
theorem path_resolution_x : ∃ g s, g.Room ∧ walk g.node (g.start slashesX) (components slashesX) = some 2 ∧
    Wp (namei slashesX) s (NameiReturns g slashesX) g.Crowded ∧
      Wp (nameiparent slashesX) s (ParentReturns g slashesX) g.Crowded := by
  obtain ⟨s, -, hs, hp⟩ := @exists_of_reaches makeX
    (fun s => tidy s && (roomy s && decide (walk s.node ROOTINO (components slashesX) = some 2)))
    (by decide +kernel)
  simp only [Bool.and_eq_true] at hp
  obtain ⟨htidy, hroom, hwalk⟩ := hp
  obtain ⟨hfine, hwf⟩ := wf_of_tidy hs htidy
  have hinv : Inv { s.view with op := true } { s with log := { s.log with outstanding := 1 } } :=
    hs.inv.withLog ⟨hs.inv.log.committing, (fun hc => by cases hc), fun _ => rfl⟩
  refine ⟨{ s.view with op := true }, _, ⟨8, 9, by decide, ?_, ?_⟩, of_decide_eq_true hwalk,
    path_resolution hinv ⟨hs.rest.owner, hfine.live, hs.closed⟩ rfl rfl
      ⟨hwf.settled, hwf.noDangling, hwf.aligned, hwf.root, hwf.named⟩ slashesX⟩
  · unfold roomy at hroom
    rw [Bool.and_eq_true, decide_eq_true_iff, decide_eq_true_iff] at hroom
    exact (hs.inv.cache.ref_eq 8).symm.trans hroom.1
  · unfold roomy at hroom
    rw [Bool.and_eq_true, decide_eq_true_iff, decide_eq_true_iff] at hroom
    exact (hs.inv.cache.ref_eq 9).symm.trans hroom.2

end Tiny

end Xv6
