import Xv6.Fs.DirSpec
import Mathlib.Data.List.DropRight

/-!
# What the path layer does

A path is a list of names, `elems`, and `resolve` follows the names through the
nodes. `namex` computes `resolve`, and changes no node as long as every inode
without links is in use: it drops the references it took on its way, and an inode
without links would be freed with its last one.
-/

namespace Xv6

open Hoare Table Scan

variable {g : View} {s : Fs} {k : Fin NINODE} {i : Nat}

/-! ## Paths -/

def elemsFrom : Nat → List UInt8 → List (List UInt8)
  | 0, _ => []
  | fuel + 1, path =>
    match skipelem path with
    | none => []
    | some (rest, name) => name :: elemsFrom fuel rest

def elems (path : List UInt8) : List (List UInt8) := elemsFrom path.length path

variable {path rest name : List UInt8}

theorem skipelem_length (h : skipelem path = some (rest, name)) : rest.length < path.length := by
  unfold skipelem at h
  split at h
  next => cases h
  next c p hp =>
    have hlen : (c :: p).length ≤ path.length :=
      hp ▸ (List.dropWhile_sublist _).length_le
    have hc : c ≠ slash := by
      have := List.head?_dropWhile_not (fun x => decide (x = slash)) path
      rw [hp] at this
      simpa using this
    rw [Option.some.injEq, Prod.mk.injEq] at h
    rw [← h.1, List.dropWhile_cons_of_pos (by simpa using hc)]
    have h1 := (List.dropWhile_sublist (fun x => decide (x = slash))
      (l := p.dropWhile fun x => decide (x ≠ slash))).length_le
    have h2 := (List.dropWhile_sublist (fun x => decide (x ≠ slash)) (l := p)).length_le
    rw [List.length_cons] at hlen
    omega

theorem elemsFrom_fuel : ∀ {m n : Nat} {path : List UInt8}, path.length ≤ m → path.length ≤ n →
    elemsFrom m path = elemsFrom n path
  | 0, 0, _, _, _ => rfl
  | 0, n + 1, path, h, _ => by
    have : path = [] := List.length_eq_zero_iff.mp (by omega)
    subst this
    rfl
  | m + 1, 0, path, _, h => by
    have : path = [] := List.length_eq_zero_iff.mp (by omega)
    subst this
    rfl
  | m + 1, n + 1, path, hm, hn => by
    unfold elemsFrom
    split
    next => rfl
    next rest name hs =>
      have := skipelem_length hs
      rw [elemsFrom_fuel (m := m) (n := n) (by omega) (by omega)]

theorem elems_none (h : skipelem path = none) : elems path = [] := by
  unfold elems
  cases hp : path.length with
  | zero => rfl
  | succ n => rw [elemsFrom, h]

theorem elems_some (h : skipelem path = some (rest, name)) : elems path = name :: elems rest := by
  have hlt := skipelem_length h
  unfold elems
  cases hp : path.length with
  | zero => omega
  | succ n =>
    rw [elemsFrom, h]
    exact congrArg (name :: ·) (elemsFrom_fuel (by omega) (Nat.le_refl _))

theorem elems_rest_eq_nil (h : skipelem path = some (rest, name)) : elems rest = [] ↔ rest = [] := by
  refine ⟨fun he => ?_, fun he => by rw [he]; rfl⟩
  have hdrop : rest.dropWhile (fun x => decide (x = slash)) = rest := by
    unfold skipelem at h
    split at h
    next => cases h
    next =>
      rw [Option.some.injEq, Prod.mk.injEq] at h
      rw [← h.1, List.dropWhile_idempotent]
  cases hs : skipelem rest with
  | none =>
    unfold skipelem at hs
    rw [hdrop] at hs
    split at hs
    next => rfl
    next => cases hs
  | some q =>
    obtain ⟨rest', name'⟩ := q
    rw [elems_some hs] at he
    cases he

/-! ## Resolving names -/

/-- Follow `names` from the inode `i`, as `namex` does: to the inode they lead to,
or to its parent. `name` is the name followed last. -/
def resolve (node : Nat → Node) (parent : Bool) :
    Nat → List (List UInt8) → List UInt8 → Option (Nat × List UInt8)
  | i, [], name => if parent then none else some (i, name)
  | i, x :: xs, _ =>
    if (node i).type = T_DIR then
      if parent = true ∧ xs = [] then some (i, x)
      else
        match (node i).find x with
        | none => none
        | some e => resolve node parent ((node i).ent e).inum xs x
    else none

/-- Some inodes without links are freed. -/
def Frees (node node' : Nat → Node) : Prop :=
  ∀ j, node' j = node j ∨ (node j).nlink = 0 ∧ node' j = (node j).freed

theorem Frees.refl (node : Nat → Node) : Frees node node := fun _ => .inl rfl

theorem Frees.trans {n₁ n₂ n₃ : Nat → Node} (h : Frees n₁ n₂) (h' : Frees n₂ n₃) : Frees n₁ n₃ := by
  intro j
  rcases h j with h1 | ⟨h0, h1⟩ <;> rcases h' j with h2 | ⟨h0', h2⟩
  · exact .inl (h2.trans h1)
  · rw [h1] at h0' h2
    exact .inr ⟨h0', h2⟩
  · rw [h1] at h2
    exact .inr ⟨h0, h2⟩
  · rw [h1] at h2
    exact .inr ⟨h0, h2⟩

theorem View.frees_drop (g : View) (i : Nat) (r : List (Fin NINODE × Nat)) : Frees g.node (g.drop i r) := by
  intro j
  unfold View.drop
  split
  next hc =>
    by_cases he : j = i
    · subst he
      rw [upd_same]
      exact .inr ⟨hc.1, rfl⟩
    · exact .inl (upd_ne _ _ he)
  next => exact .inl rfl

theorem Node.type_freed_ne (n : Node) : n.freed.type ≠ T_DIR := by
  change (0 : Int16) ≠ T_DIR
  decide

variable {node : Nat → Node}

theorem Frees.resolve_eq {node' : Nat → Node} (h : Frees node node') {parent : Bool} :
    ∀ (names : List (List UInt8)) (i : Nat) (name : List UInt8) {r : Nat × List UInt8},
      resolve node' parent i names name = some r → resolve node parent i names name = some r
  | [], _, _, _, hr => hr
  | x :: xs, i, name, r, hr => by
    rw [resolve] at hr ⊢
    split at hr
    next hdir =>
      have he : node' i = node i := by
        rcases h i with he | ⟨-, he⟩
        · exact he
        · exact absurd (he ▸ hdir) (node i).type_freed_ne
      rw [he] at hdir hr
      rw [if_pos hdir]
      split at hr
      next hp => rw [if_pos hp]; exact hr
      next hp =>
        rw [if_neg hp]
        split at hr
        · cases hr
        · exact Frees.resolve_eq h xs _ _ hr
    next => cases hr

def Maps (node : Nat → Node) : Prop := ∀ i, (node i).type = T_DIR → (node i).IsMap

/-- A step that leaves the directories maps. -/
def Keeps (node node' : Nat → Node) : Prop := Maps node → Maps node'

theorem Keeps.trans {n₁ n₂ n₃ : Nat → Node} (h : Keeps n₁ n₂) (h' : Keeps n₂ n₃) : Keeps n₁ n₃ :=
  fun hm => h' (h hm)

theorem Keeps.refl (node : Nat → Node) : Keeps node node := id

theorem Frees.keeps {node' : Nat → Node} (h : Frees node node') : Keeps node node' := by
  intro hm i hdir
  rcases h i with he | ⟨-, he⟩
  · rw [he] at hdir ⊢
    exact hm i hdir
  · exact absurd (he ▸ hdir) (node i).type_freed_ne

theorem Keeps.upd {i : Nat} {n : Node}
    (h : Maps node → n.type = T_DIR → n.IsMap) : Keeps node (upd node i n) := by
  intro hm j hdir
  by_cases hj : j = i
  · subst hj
    rw [upd_same] at hdir ⊢
    exact h hm hdir
  · rw [upd_ne _ _ hj] at hdir ⊢
    exact hm j hdir

theorem Keeps.nlink (node : Nat → Node) (i : Nat) (c : Int16) :
    Keeps node (Table.upd node i { node i with nlink := c }) :=
  .upd fun hm hdir => ⟨(hm i hdir).aligned, (hm i hdir).unique⟩

/-- An inode without links is in use. -/
def View.Settled (g : View) : Prop :=
  ∀ i < g.sb.ninodes, (g.node i).type ≠ 0 → (g.node i).nlink = 0 → g.Uses i

/-- The entries of allocated directories name allocated inodes. -/
def View.NoDangling (g : View) : Prop :=
  ∀ i < g.sb.ninodes, (g.node i).type = T_DIR → ∀ e < (g.node i).size / DESIZE,
    ((g.node i).ent e).inum ≠ 0 → (g.node ((g.node i).ent e).inum).type ≠ 0

/-- Directories are whole numbers of entries. -/
def View.Aligned (g : View) : Prop :=
  ∀ i < g.sb.ninodes, (g.node i).type = T_DIR → (g.node i).Aligned

theorem View.Uses.mono {r r' : List (Fin NINODE × Nat)} (hr : ∀ x ∈ r, x ∈ r')
    (h : View.Uses { g with refs := r } i) : View.Uses { g with refs := r' } i :=
  h.imp fun _ hk => hk.imp (hr _) id

theorem View.Settled.drop_eq (h : g.Settled) {j : Nat} (hj : j < g.sb.ninodes)
    (ht : (g.node j).type ≠ 0) {r : List (Fin NINODE × Nat)} (hr : ∀ x ∈ g.refs, x ∈ r) :
    g.drop j r = g.node :=
  View.drop_keep fun h0 => View.Uses.mono hr (h j hj ht h0)

def NamexPost (g : View) (parent : Bool) (i : Nat) (names : List (List UInt8))
    (name : List UInt8) : Option (Fin NINODE × List UInt8) → Fs → Prop
  | none, t => ∃ node, Inv { g with node := node } t ∧ Frees g.node node ∧
      (g.Settled → node = g.node ∧ resolve g.node parent i names name = none)
  | some (k, x), t => ∃ node j, Inv { g with node := node, refs := (k, j) :: g.refs } t ∧
      Frees g.node node ∧ resolve g.node parent i names name = some (j, x) ∧
      (parent = true → (node j).type = T_DIR) ∧ (g.Settled → node = g.node)

def NamexStop (g : View) (i : Nat) (e : Stop) : Prop :=
  e.scarce ∨
  (e = .panic .noType ∧ ¬ (g.Settled ∧ g.NoDangling ∧ (g.node i).type ≠ 0)) ∨
  e = .panic .dirlookupRead ∧ ¬ (g.Settled ∧ g.Aligned)

theorem Wp.namexStep {m : Kern (Option (Fin NINODE × List UInt8))} {parent : Bool} {j : Nat} {names names' : List (List UInt8)} {name' : List UInt8}
    (hfr : Frees g.node node) (hnode : g.Settled → node = g.node)
    (hres : resolve g.node parent i names name = resolve g.node parent j names' name')
    (hnext : g.NoDangling → (g.node j).type ≠ 0)
    (h : Wp m s (NamexPost { g with node := node } parent j names' name')
      (NamexStop { g with node := node } j)) :
    Wp m s (NamexPost g parent i names name) (NamexStop g i) := by
  refine h.mono ?_ ?_
  · rintro (_ | ⟨k, x⟩) t
    · rintro ⟨node', ht, hfr', hpost⟩
      refine ⟨node', ht, hfr.trans hfr', fun hset => ?_⟩
      obtain rfl := hnode hset
      rw [hres]
      exact hpost hset
    · rintro ⟨node', l, ht, hfr', hr, htype, hpost⟩
      refine ⟨node', l, ht, hfr.trans hfr', hres ▸ hfr.resolve_eq _ _ _ hr, htype, fun hset => ?_⟩
      obtain rfl := hnode hset
      exact hpost hset
  · rintro e (he | ⟨he, hn⟩ | ⟨he, hn⟩)
    · exact .inl he
    · refine .inr (.inl ⟨he, fun hc => ?_⟩)
      obtain rfl := hnode hc.1
      exact hn ⟨hc.1, hc.2.1, hnext hc.2.1⟩
    · refine .inr (.inr ⟨he, fun hc => ?_⟩)
      obtain rfl := hnode hc.1
      exact hn hc

theorem namexFrom_spec (parent : Bool) : ∀ (fuel : Nat) (g : View) (s : Fs) (k : Fin NINODE)
    (i : Nat) (path name : List UInt8), path.length < fuel → g.op = true → g.locks = ∅ →
    Inv { g with refs := (k, i) :: g.refs } s →
    Wp (namexFrom parent fuel k path name) s (NamexPost g parent i (elems path) name)
      (NamexStop g i)
  | 0, _, _, _, _, _, _, hfuel, _, _, _ => by omega
  | fuel + 1, g, s, k, i, path, name, hfuel, hop, hlk, h => by
    have hk : k ∉ g.locks := by simp [hlk]
    have hat : View.At { g with refs := (k, i) :: g.refs } k i := .inl List.mem_cons_self
    have hi := (h.at_lt hat).2
    unfold namexFrom
    split
    next hs =>
      rw [elems_none hs]
      refine wp_ite (fun hp => ?_) fun hp => ?_
      · refine (iput_spec h hop (List.Perm.refl _) hk).bind ?_ fun _ => .inl
        rintro _ t ⟨node, ht, hnode⟩
        refine wp_pure.mpr ⟨node, ht, ?_, fun hset => ⟨?_, by rw [resolve, if_pos hp]⟩⟩
        · rcases hnode with rfl | ⟨rfl, -⟩
          · exact Frees.refl _
          · exact View.frees_drop _ _ _
        rcases hnode with rfl | ⟨rfl, hty⟩
        · rfl
        · exact hset.drop_eq hi hty fun _ hx => hx
      · exact wp_pure.mpr ⟨g.node, i, h, Frees.refl _, by rw [resolve, if_neg hp],
          fun hc => absurd hc hp, fun _ => rfl⟩
    next rest x hs =>
      have hlen := skipelem_length hs
      have herase : (insert k g.locks).erase k = g.locks := Finset.erase_insert hk
      rw [wp_bind]
      refine (ilock_spec h hat hk).mono ?_ fun e he =>
        .inr (.inl ⟨he.1, fun hc => hc.2.2 he.2⟩)
      rintro _ t ⟨ht, hty⟩
      have hl : k ∈ insert k g.locks := Finset.mem_insert_self _ _
      have hdtype : (t.icache k).din.type = (g.node i).type := by
        rw [ht.din_type hl, ht.inum_eq hat]
      -- Giving the directory back ends the walk.
      have hput : ∀ u, Inv { g with refs := (k, i) :: g.refs, locks := insert k g.locks } u →
          resolve g.node parent i (elems path) name = none →
          Wp (do iunlockput k; return none) u (NamexPost g parent i (elems path) name)
            (NamexStop g i) := by
        intro u hu hres
        refine (iunlockput_spec hu hop (List.Perm.refl _) hl).bind ?_ fun _ => .inl
        intro _ v hv
        dsimp only at hv
        rw [herase] at hv
        exact wp_pure.mpr ⟨_, hv, View.frees_drop _ _ _, fun hset =>
          ⟨hset.drop_eq hi hty fun _ hx => hx, hres⟩⟩
      simp only [wp_bind, wp_inode]
      rw [hdtype]
      refine wp_ite (fun hdir => ?_) fun hdir => wp_ite (fun hp => ?_) fun hp => ?_
      · exact hput t ht (by rw [elems_some hs, resolve, if_neg hdir])
      · refine (iunlock_spec ht hl _).seq ?_
        rintro _ u ⟨hu, -⟩
        dsimp only at hu
        rw [herase] at hu
        refine wp_pure.mpr ⟨g.node, i, hu, Frees.refl _, ?_, fun _ => not_not.mp hdir, fun _ => rfl⟩
        rw [elems_some hs, resolve, if_pos (not_not.mp hdir),
          if_pos ⟨hp.1, (elems_rest_eq_nil hs).mpr hp.2⟩]
      · have hdir' := not_not.mp hdir
        have hp' : ¬ (parent = true ∧ elems rest = []) :=
          fun hc => hp ⟨hc.1, (elems_rest_eq_nil hs).mp hc.2⟩
        rw [wp_bind]
        refine (dirlookup_spec ht hl hat hdir' x).mono ?_ ?_
        · rintro (_ | ⟨next, off⟩) u
          · rintro ⟨hu, hfind, -⟩
            rw [hu]
            dsimp only at hfind
            exact hput t ht (by rw [elems_some hs, resolve, if_pos hdir', if_neg hp', hfind])
          · rintro ⟨e, hfind, -, hu⟩
            dsimp only at hfind hu ⊢
            rw [wp_bind]
            refine (iunlockput_spec hu hop (List.Perm.swap _ _ _) hl).mono ?_ fun _ => .inl
            intro _ v hv
            dsimp only at hv
            rw [herase] at hv
            have hres : resolve g.node parent i (elems path) name =
                resolve g.node parent ((g.node i).ent e).inum (elems rest) x := by
              rw [elems_some hs, resolve, if_pos hdir', if_neg hp', hfind]
            have hnext : g.NoDangling → (g.node ((g.node i).ent e).inum).type ≠ 0 :=
              fun hc => hc i hi hdir' e (Node.find_some hfind).1 (Node.find_some hfind).2.1
            exact Wp.namexStep (View.frees_drop _ _ _)
              (fun hset => hset.drop_eq hi hty fun _ => List.mem_cons_of_mem _) hres hnext
              (namexFrom_spec parent fuel
                { g with node := g.drop i ((next, ((g.node i).ent e).inum) :: g.refs) } v next _
                rest x (by omega) hop hlk hv)
        · rintro e (he | ⟨he, hal⟩)
          · exact .inl he
          · exact .inr (.inr ⟨he, fun hc => hal (hc.2 i hi hdir')⟩)

/-! ## From the root or the current directory -/

/-- A process runs, the cache counts the pointers of the processes, and a file
nobody refers to is open on nothing. -/
structure View.Running (g : View) : Prop where
  owner : g.owner = g.user
  live : (g.user.proc g.cur).live = true
  closed : ∀ f, (g.user.ftable f).ref = 0 → (g.user.ftable f).type ≠ .inode

def View.start (g : View) (path : List UInt8) : Nat :=
  if path.head? = some slash then ROOTINO else g.inum (g.user.proc g.cur).cwd

/-- The inode a path denotes. -/
def View.lookup (g : View) (path : List UInt8) : Option Nat :=
  (resolve g.node false (g.start path) (elems path) []).map Prod.fst

/-- The directory that holds the last name of a path, and the name. -/
def View.parent (g : View) (path : List UInt8) : Option (Nat × List UInt8) :=
  resolve g.node true (g.start path) (elems path) []

theorem View.Running.holds_cwd (h : g.Running) : 0 < g.owner.holds (g.user.proc g.cur).cwd := by
  refine User.holds_of_cwd (p := g.cur) ?_
  rw [h.owner]
  exact ⟨h.live, rfl⟩

theorem View.Running.at_cwd (h : g.Running) :
    g.At (g.user.proc g.cur).cwd (g.inum (g.user.proc g.cur).cwd) := .inr ⟨h.holds_cwd, rfl⟩

section

variable (h : Inv g s) (hrun : g.Running) (hop : g.op = true) (hlk : g.locks = ∅)

include h hrun hop hlk

theorem namex_spec (path : List UInt8) (parent : Bool) :
    Wp (namex path parent) s (NamexPost g parent (g.start path) (elems path) [])
      (NamexStop g (g.start path)) := by
  unfold namex View.start
  by_cases hp : path.head? = some slash
  · simp only [if_pos hp]
    rw [wp_bind]
    refine (iget_spec h ⟨Nat.one_pos, h.geom.root_lt⟩).mono (fun k t ht => ?_) fun _ => .inl
    exact namexFrom_spec parent _ g t k _ path [] (Nat.lt_succ_self _) hop hlk ht
  · simp only [if_neg hp, wp_bind, wp_myproc]
    have hcwd : (s.proc s.cur).cwd = (g.user.proc g.cur).cwd := by rw [← h.user, h.cur]; rfl
    rw [hcwd]
    refine (idup_spec h hrun.at_cwd _).imp ?_
    rintro k t ⟨rfl, ht⟩
    exact namexFrom_spec parent _ g t _ _ path [] (Nat.lt_succ_self _) hop hlk ht

def NameiPost (g : View) (path : List UInt8) : Option (Fin NINODE) → Fs → Prop
  | none, t => ∃ node, Inv { g with node := node } t ∧ Frees g.node node ∧
      (g.Settled → node = g.node ∧ g.lookup path = none)
  | some k, t => ∃ node i, Inv { g with node := node, refs := (k, i) :: g.refs } t ∧
      Frees g.node node ∧ (g.Settled → node = g.node ∧ g.lookup path = some i)

theorem namei_spec (path : List UInt8) :
    Wp (namei path) s (NameiPost g path) (NamexStop g (g.start path)) := by
  unfold namei
  refine (namex_spec h hrun hop hlk path false).seq ?_
  rintro (_ | ⟨k, x⟩) t
  · rintro ⟨node, ht, hfr, hset⟩
    refine wp_pure.mpr ⟨node, ht, hfr, fun hs => ⟨(hset hs).1, ?_⟩⟩
    rw [View.lookup, (hset hs).2, Option.map_none]
  · rintro ⟨node, i, ht, hfr, hres, -, hset⟩
    refine wp_pure.mpr ⟨node, i, ht, hfr, fun hs => ⟨hset hs, ?_⟩⟩
    rw [View.lookup, hres, Option.map_some]

def ParentPost (g : View) (path : List UInt8) : Option (Fin NINODE × List UInt8) → Fs → Prop
  | none, t => ∃ node, Inv { g with node := node } t ∧ Frees g.node node ∧
      (g.Settled → node = g.node ∧ g.parent path = none)
  | some (k, x), t => ∃ node i, Inv { g with node := node, refs := (k, i) :: g.refs } t ∧
      Frees g.node node ∧ g.parent path = some (i, x) ∧
      (node i).type = T_DIR ∧ (g.Settled → node = g.node)

theorem nameiparent_spec (path : List UInt8) :
    Wp (nameiparent path) s (ParentPost g path) (NamexStop g (g.start path)) := by
  refine (namex_spec h hrun hop hlk path true).imp ?_
  rintro (_ | ⟨k, x⟩) t
  · exact id
  · rintro ⟨node, i, ht, hfr, hres, hty, hset⟩
    exact ⟨node, i, ht, hfr, hres, hty rfl, hset⟩

end

/-! ## Well-formed file systems -/

/-- What a system call may rely on. -/
structure View.Wf (g : View) : Prop where
  settled : g.Settled
  noDangling : g.NoDangling
  aligned : g.Aligned
  root : (g.node ROOTINO).type ≠ 0
  named : ∀ i < g.sb.ninodes, (g.node i).type = T_DIR → ∀ e < (g.node i).size / DESIZE,
    ((g.node i).ent e).inum ≠ 0 → nameKey ((g.node i).ent e).name ≠ nameKey dot →
    nameKey ((g.node i).ent e).name ≠ nameKey dotdot →
    ((g.node i).ent e).inum ≠ i ∧ 1 ≤ (g.node ((g.node i).ent e).inum).nlink

/-- What goes wrong on a file system that is not well formed. -/
def Stop.Untidy : Stop → Prop
  | .panic .noType => True
  | .panic .dirlookupRead => True
  | .panic .unlinkNlink => True
  | .panic .isdirempty => True
  | .asleep => True
  | _ => False

/-- How a system call on paths fails: the disk, a table or the directory is full, or
the file system is not well formed. -/
def CallStop (g : View) (e : Stop) : Prop :=
  e.scarce ∨ e = .panic .dirlink ∨ e.Untidy ∧ ¬ g.Wf

/-- A call is under way: its transaction is open and nothing is held yet. -/
structure View.InCall (g : View) : Prop extends g.Running where
  refs : g.refs = []
  locks : g.locks = ∅
  op : g.op = true

/-- Between two system calls: the code holds nothing, and no transaction is
open. -/
structure View.Rest (g : View) : Prop where
  owner : g.owner = g.user
  closed : ∀ f, (g.user.ftable f).ref = 0 → (g.user.ftable f).type ≠ .inode
  refs : g.refs = []
  locks : g.locks = ∅
  op : g.op = false

/-- A process is about to make a system call. -/
structure View.Idle (g : View) : Prop extends g.Rest where
  live : (g.user.proc g.cur).live = true

theorem View.Idle.inCall (h : g.Idle) : View.InCall { g with op := true } :=
  ⟨⟨h.owner, h.live, h.closed⟩, h.refs, h.locks, rfl⟩

theorem Inv.start_type (h : Inv g s) (hrun : g.Running) (hwf : g.Wf) (path : List UInt8) :
    (g.node (g.start path)).type ≠ 0 := by
  unfold View.start
  split
  · exact hwf.root
  · exact (h.cache.held _ hrun.holds_cwd).2.1

theorem NamexStop.callStop (h : Inv g s) (hrun : g.Running) {e : Stop}
    (he : NamexStop g (g.start path) e) : CallStop g e := by
  rcases he with he | ⟨rfl, he⟩ | ⟨rfl, he⟩
  · exact .inl he
  · refine .inr (.inr ⟨trivial, fun hwf => he ⟨hwf.settled, hwf.noDangling, ?_⟩⟩)
    exact h.start_type hrun hwf path
  · exact .inr (.inr ⟨trivial, fun hwf => he ⟨hwf.settled, hwf.aligned⟩⟩)

end Xv6
