import Xv6.Fs.PathSpec

/-!
# What `create` does

`create` either finds the name, or makes an inode and adds the name for it. A
new directory starts with its two entries, and its parent gets a link for the
second one.
-/

namespace Xv6

open Hoare Table Scan

variable {g : View} {s : Fs} {k : Fin NINODE} {i : Nat}

/-! ## The new nodes -/

variable {n : Node} {name : List UInt8}

theorem Node.find_eq_none
    (h : ∀ e < n.size / DESIZE, (n.ent e).inum ≠ 0 → nameKey name ≠ nameKey (n.ent e).name) :
    n.find name = none :=
  firstFrom_eq_none fun e _ he => by
    rw [Bool.and_eq_false_iff, decide_eq_false_iff_not]
    by_cases h0 : (n.ent e).inum = 0
    · exact .inl fun hc => hc h0
    · exact .inr (Bool.eq_false_iff.mpr fun hc => h e (by omega) h0 (namecmp_iff.mp hc))

/-- A new inode, before it has entries. -/
def blankNode (type major minor : Int16) : Node := ⟨type, major, minor, 1, 0, fun _ => 0⟩

/-- The inode `i` that `create` makes in the directory `d`. -/
def newNode (type major minor : Int16) (i d : Nat) : Node :=
  if type = T_DIR then ((blankNode type major minor).addEnt dot i).addEnt dotdot d
  else blankNode type major minor

/-- The directory `n` after `create` made the inode `i` in it. -/
def Node.withNew (n : Node) (type : Int16) (name : List UInt8) (i : Nat) : Node :=
  (if type = T_DIR then { n with nlink := n.nlink + 1 } else n).addEnt name i

/-- The nodes after `create` made the inode `i` in the directory `d`. -/
def View.made (g : View) (d : Nat) (name : List UInt8) (i : Nat) (type major minor : Int16) :
    Nat → Node :=
  upd (upd g.node i (newNode type major minor i d)) d ((g.node d).withNew type name i)

theorem Node.freeEnt_of_size_zero (h : n.size = 0) : n.freeEnt = 0 := by
  unfold Node.freeEnt
  rw [h, Nat.zero_div]
  rfl

theorem Node.find_of_size_zero (h : n.size = 0) (name : List UInt8) : n.find name = none := by
  unfold Node.find
  rw [h, Nat.zero_div]
  rfl

theorem Node.addEnt_first (h : n.size = 0) (name : List UInt8) (i : Nat) :
    (n.addEnt name i).size = DESIZE ∧ (n.addEnt name i).ent 0 = ⟨i % 65536, strncpy name⟩ := by
  unfold Node.addEnt
  rw [Node.freeEnt_of_size_zero h, Node.size_setEnt (length_bytes _),
    Node.ent_setEnt_same (length_bytes _), ofBytes_bytes_strncpy, h]
  exact ⟨by omega, rfl⟩

theorem Node.find_second (h : n.size = 0) {name' : List UInt8} (i : Nat)
    (hne : nameKey name' ≠ nameKey name) : (n.addEnt name i).find name' = none := by
  obtain ⟨hsize, hent⟩ := n.addEnt_first h name i
  refine Node.find_eq_none fun e he _ => ?_
  have : e = 0 := by
    rw [hsize, Nat.div_self (by decide)] at he
    omega
  rw [this, hent, nameKey_strncpy]
  exact hne

/-! ## The code -/

theorem dirlink_new (h : Inv g s) (hop : g.op = true) (hk : k ∈ g.locks) (hat : g.At k i)
    (hdir : (g.node i).type = T_DIR) {m : Nat} (hm : m < g.sb.ninodes)
    (hfind : (g.node i).find name = none) (hal : (g.node i).Aligned) : Wp (dirlink k name m) s
      (fun r t => r = 0 ∧ Inv { g with node := upd g.node i ((g.node i).addEnt name m) } t)
      fun e => e.scarce ∨
        e = .panic .dirlink ∧ ¬ (g.node i).Fits (DESIZE * (g.node i).freeEnt) DESIZE := by
  refine (dirlink_spec h hop hk hat hdir name hm).mono ?_ ?_
  · rintro r t (⟨hr, -, -, ht⟩ | ⟨-, e, -, he, -⟩)
    · exact ⟨hr, ht⟩
    · rw [hfind] at he
      cases he
  · rintro x ((hx | ⟨-, hx⟩) | ⟨-, e, he, -⟩ | hx)
    · exact .inl hx
    · exact absurd hal hx
    · rw [hfind] at he
      cases he
    · exact .inr hx

theorem Inv.ne_of_at (h : Inv g s) {l : Fin NINODE} {j : Nat} (hk : g.At k i) (hl : g.At l j)
    (hne : i ≠ j) : k ≠ l := by
  rintro rfl
  exact hne ((h.inum_eq hk).symm.trans (h.inum_eq hl))

/-- The nodes after the new directory `i` in `d` has its two entries. -/
def View.withDots (g : View) (i d : Nat) : Nat → Node :=
  upd (upd g.node d { g.node d with nlink := (g.node d).nlink + 1 }) i
    (((g.node i).addEnt dot i).addEnt dotdot d)

variable {dp : Fin NINODE} {d : Nat}

theorem createDots_spec (h : Inv g s) (hop : g.op = true) {ip : Fin NINODE}
    (hip : ip ∈ g.locks) (hdp : dp ∈ g.locks) (hati : g.At ip i) (hatd : g.At dp d) (hne : i ≠ d)
    (hdir : (g.node i).type = T_DIR) (hsize : (g.node i).size = 0) :
    Wp (createDots ip dp) s (fun _ t => Inv { g with node := g.withDots i d } t) Stop.scarce := by
  have hi := h.at_lt hati
  have hd := h.at_lt hatd
  obtain ⟨hsize1, -⟩ := (g.node i).addEnt_first hsize dot i
  unfold createDots
  simp only [wp_bind, wp_setDin]
  refine (nlink_spec h hop hdp hatd (· + 1)).imp fun _ t ht => ?_
  obtain ⟨node₁, hnode₁⟩ :
      ∃ n, n = upd g.node d { g.node d with nlink := (g.node d).nlink + 1 } := ⟨_, rfl⟩
  rw [← hnode₁] at ht
  have hn1 : node₁ i = g.node i := by rw [hnode₁, upd_ne _ _ hne]
  have hdir1 : (node₁ i).type = T_DIR := by rw [hn1, hdir]
  have hzero : (node₁ i).size = 0 := by rw [hn1, hsize]
  have hal1 : (node₁ i).Aligned := by unfold Node.Aligned; rw [hzero, Nat.zero_mod]
  have hfit1 : (node₁ i).Fits (DESIZE * (node₁ i).freeEnt) DESIZE := by
    rw [Node.freeEnt_of_size_zero hzero]
    exact ⟨Nat.zero_le _, by decide⟩
  rw [wp_inode, ht.inum_eq hati]
  refine (dirlink_new ht hop hip hati hdir1 hi.2 (Node.find_of_size_zero hzero _) hal1).mono ?_
    fun x hx => hx.elim id fun hc => absurd hfit1 hc.2
  rintro r u ⟨rfl, hu⟩
  refine wp_ite (fun hc => absurd hc (by decide)) fun _ => ?_
  obtain ⟨node₂, hnode₂⟩ : ∃ n, n = upd node₁ i ((node₁ i).addEnt dot i) := ⟨_, rfl⟩
  dsimp only at hu
  rw [← hnode₂] at hu
  have hn2 : node₂ i = (g.node i).addEnt dot i := by rw [hnode₂, upd_same, hn1]
  have hdir2 : (node₂ i).type = T_DIR := by rw [hn2]; exact hdir
  have hsize2 : (node₂ i).size = DESIZE := by rw [hn2, hsize1]
  have hal2 : (node₂ i).Aligned := by unfold Node.Aligned; rw [hsize2, Nat.mod_self]
  have hfind2 : (node₂ i).find dotdot = none := by
    rw [hn2]
    exact Node.find_second hsize i (by decide)
  have hfit2 : (node₂ i).Fits (DESIZE * (node₂ i).freeEnt) DESIZE := by
    have hle := (node₂ i).freeEnt_le
    rw [hsize2, Nat.div_self (by decide)] at hle
    unfold Node.Fits
    rw [hsize2]
    simp only [DESIZE, DIRSIZ, MAXFILE, NDIRECT, NINDIRECT, BSIZE]
    omega
  simp only [wp_bind, wp_inode]
  rw [hu.inum_eq hatd]
  refine (dirlink_new hu hop hip hati hdir2 hd.2 hfind2 hal2).mono ?_
    fun x hx => hx.elim id fun hc => absurd hfit2 hc.2
  rintro r v ⟨rfl, hv⟩
  refine wp_ite (fun hc => absurd hc (by decide)) fun _ => wp_pure.mpr ?_
  dsimp only at hv
  rw [hn2, hnode₂, upd_upd, hnode₁] at hv
  exact hv

variable {type : Int16}

theorem createMiddle_spec {ip : Fin NINODE} {major minor : Int16}
    (h : Inv { g with node := upd g.node i (blankNode type major minor) } s) (hop : g.op = true)
    (hip : ip ∈ g.locks) (hdp : dp ∈ g.locks) (hati : g.At ip i) (hatd : g.At dp d) (hne : i ≠ d) :
    Wp (if type = T_DIR then createDots ip dp else return ()) s (fun _ t => Inv { g with node :=
      (upd (upd g.node i (newNode type major minor i d)) d
        (if type = T_DIR then { g.node d with nlink := (g.node d).nlink + 1 } else g.node d)) } t)
      Stop.scarce := by
  unfold newNode
  refine wp_ite (fun ht => ?_) fun ht => ?_
  · refine (createDots_spec h hop hip hdp hati hatd hne (by simpa [blankNode] using ht)
      (by simp [blankNode])).imp fun _ t hu => ?_
    unfold View.withDots at hu
    dsimp only at hu
    rw [upd_same, upd_ne _ _ hne.symm, upd_comm _ _ _ hne.symm, upd_upd] at hu
    rw [if_pos ht, if_pos ht]
    exact hu
  · rw [if_neg ht, if_neg ht, wp_pure]
    have : upd (upd g.node i (blankNode type major minor)) d (g.node d) =
        upd g.node i (blankNode type major minor) := by
      rw [upd_comm _ _ _ hne, upd_eq_self]
    rw [this]
    exact h

theorem createNew_spec (h : Inv { g with refs := [(dp, d)], locks := {dp} } s) (hop : g.op = true)
    (hdir : (g.node d).type = T_DIR) (hfind : (g.node d).find name = none)
    (hal : (g.node d).Aligned) (htype : type ≠ 0) (major minor : Int16) :
    Wp (createNew dp name type major minor) s (fun ip t => ∃ i, 0 < i ∧ i < g.sb.ninodes ∧
      (g.node i).type = 0 ∧ Inv { g with
        refs := [(ip, i)]
        locks := {ip}
        node := View.drop { g with node := g.made d name i type major minor } d [(ip, i)] } t)
      fun e => e.scarce ∨
        e = .panic .dirlink ∧ ¬ (g.node d).Fits (DESIZE * (g.node d).freeEnt) DESIZE := by
  have hatd : View.At { g with refs := [(dp, d)], locks := {dp} } dp d := .inl List.mem_cons_self
  have hdp := Finset.mem_singleton_self dp
  unfold createNew
  simp only [wp_bind, wp_inode]
  rw [(h.cache.slot dp (h.ref_pos hatd)).1]
  refine (ialloc_spec h hop (fun j hj => ?_) type).mono ?_ fun _ => .inl
  · rw [List.mem_singleton.mp hj]
    change (g.node d).type ≠ 0
    rw [hdir]
    decide
  rintro ip t ⟨i, hi0, hi, hfree, ht⟩
  have hne : i ≠ d := by
    rintro rfl
    exact absurd (hfree.symm.trans hdir) (by decide)
  have hrefi : (ip, i) ∈ [(ip, i), (dp, d)] := List.mem_cons_self
  have hrefd : (dp, d) ∈ [(ip, i), (dp, d)] := List.mem_cons_of_mem _ List.mem_cons_self
  have hipdp : ip ≠ dp := ht.ne_of_at (.inl hrefi) (.inl hrefd) hne
  refine (ilock_spec ht (.inl hrefi) (by simpa using hipdp)).mono ?_ fun e he => ?_
  · rintro _ u ⟨hu, -⟩
    have hip : ip ∈ insert ip ({dp} : Finset (Fin NINODE)) := Finset.mem_insert_self _ _
    have hdp' : dp ∈ insert ip ({dp} : Finset (Fin NINODE)) := Finset.mem_insert_of_mem hdp
    simp only [wp_setDin]
    refine (store_spec hu hop hip (.inl hrefi)
      (f := fun d => { d with major := major, minor := minor, nlink := 1 }) rfl).mono ?_
      fun _ => .inl
    intro _ v hv
    dsimp only at hv
    rw [upd_upd, upd_same] at hv
    change Inv { g with
      refs := [(ip, i), (dp, d)]
      locks := insert ip {dp}
      node := upd g.node i (blankNode type major minor) } v at hv
    refine (createMiddle_spec (g := { g with refs := [(ip, i), (dp, d)], locks := insert ip {dp} })
      hv hop hip hdp' (.inl hrefi) (.inl hrefd) hne).mono ?_ fun _ => .inl
    intro _ w hw
    dsimp only at hw
    obtain ⟨node, hnode⟩ : ∃ n, n = upd (upd g.node i (newNode type major minor i d)) d
      (if type = T_DIR then { g.node d with nlink := (g.node d).nlink + 1 } else g.node d) := ⟨_, rfl⟩
    rw [← hnode] at hw
    have hnd : node d =
        if type = T_DIR then { g.node d with nlink := (g.node d).nlink + 1 } else g.node d := by
      rw [hnode, upd_same]
    have hdird : (node d).type = T_DIR := by rw [hnd]; split <;> exact hdir
    have hfindd : (node d).find name = none := by rw [hnd]; split <;> exact hfind
    have hald : (node d).Aligned := by rw [hnd]; split <;> exact hal
    rw [hw.inum_eq (.inl hrefi)]
    refine (dirlink_new hw hop hdp' (.inl hrefd) hdird hi hfindd hald).mono ?_ ?_
    · rintro r x ⟨rfl, hx⟩
      refine wp_ite (fun hc => absurd hc (by decide)) fun _ => ?_
      rw [wp_bind]
      dsimp only at hx
      refine (iunlockput_spec hx hop (List.Perm.swap _ _ _) hdp').mono ?_ fun _ => .inl
      intro _ y hy
      refine wp_pure.mpr ⟨i, hi0, hi, hfree, ?_⟩
      dsimp only at hy
      rw [hnd, hnode, upd_upd, Finset.erase_insert_of_ne hipdp,
        Finset.erase_singleton, LawfulSingleton.insert_empty_eq] at hy
      exact hy
    · rintro e (he | ⟨he, hfit⟩)
      · exact .inl he
      · refine .inr ⟨he, ?_⟩
        dsimp only at hfit
        rw [hnd] at hfit
        split at hfit <;> exact hfit
  · change _ ∧ (upd g.node i _ i).type = 0 at he
    rw [upd_same] at he
    exact absurd he.2 htype

theorem View.drop_ne {r : List (Fin NINODE × Nat)} (h : i ≠ d) : g.drop d r i = g.node i := by
  unfold View.drop
  split
  · exact upd_ne _ _ h
  · rfl

theorem newNode_type (type major minor : Int16) (i d : Nat) :
    (newNode type major minor i d).type = type := by
  unfold newNode
  split <;> rfl

theorem Node.withNew_nlink (hn : 0 ≤ n.nlink) (h : (n.withNew type name i).nlink = 0) : n.nlink = 0 := by
  unfold Node.withNew at h
  by_cases ht : type = T_DIR
  · rw [if_pos ht] at h
    change n.nlink + 1 = 0 at h
    have : n.nlink = -1 := by
      have := congrArg (· - 1) h
      simpa using this
    rw [this] at hn
    exact absurd hn (by decide)
  · rw [if_neg ht] at h
    exact h

theorem newNode_isMap (type major minor : Int16) (i d : Nat)
    (h : (newNode type major minor i d).type = T_DIR) : (newNode type major minor i d).IsMap := by
  rw [newNode_type] at h
  have hzero : (blankNode type major minor).size = 0 := rfl
  rw [newNode, if_pos h]
  exact ((Node.isMap_of_size_zero hzero).addEnt (Node.find_of_size_zero hzero _) i).addEnt
    (Node.find_second hzero i (by decide)) d

theorem View.made_keeps (g : View) (hfind : (g.node d).find name = none)
    (i : Nat) (type major minor : Int16) : Keeps g.node (g.made d name i type major minor) := by
  have hnew : Keeps g.node (upd g.node i (newNode type major minor i d)) :=
    .upd fun _ => newNode_isMap type major minor i d
  intro hm j hdir
  by_cases hj : j = d
  · subst hj
    unfold View.made at hdir ⊢
    rw [upd_same] at hdir ⊢
    unfold Node.withNew at hdir ⊢
    by_cases ht : type = T_DIR
    · rw [if_pos ht] at hdir ⊢
      have hmap := hm j hdir
      exact Node.IsMap.addEnt (n := { g.node j with nlink := (g.node j).nlink + 1 })
        ⟨hmap.aligned, hmap.unique⟩ hfind i
    · rw [if_neg ht] at hdir ⊢
      exact (hm j hdir).addEnt hfind i
  · unfold View.made at hdir ⊢
    rw [upd_ne _ _ hj] at hdir ⊢
    exact hnew hm j hdir

/-- What `create` does to the nodes: it finds a file, or makes the inode `i`. -/
inductive Created (g : View) (path : List UInt8) (type major minor : Int16) :
    (Nat → Node) → Nat → Prop where
  | found {d e : Nat} {x : List UInt8} :
    g.parent path = some (d, x) →
    (g.node d).find x = some e →
    (g.node ((g.node d).ent e).inum).type = T_FILE →
    Created g path type major minor g.node ((g.node d).ent e).inum
  | made {d i : Nat} {x : List UInt8} :
    g.parent path = some (d, x) →
    (g.node d).find x = none →
    (g.node d).Aligned →
    0 < i → i < g.sb.ninodes →
    (g.node i).type = 0 →
    Created g path type major minor (g.made d x i type major minor) i

/-- The path names a place in a directory where nothing is. -/
def View.Missing (g : View) (path : List UInt8) : Prop :=
  ∃ d x, g.parent path = some (d, x) ∧ (g.node d).find x = none

theorem View.not_missing {path x : List UInt8} {e : Nat} (hd : g.parent path = some (d, x))
    (he : (g.node d).find x = some e) : ¬ g.Missing path := by
  rintro ⟨d', x', hd', hn⟩
  rw [hd] at hd'
  cases hd'
  rw [he] at hn
  cases hn

theorem Created.same_or_missing {path : List UInt8} {major minor : Int16}
    {node : Nat → Node} (h : Created g path type major minor node i) :
    node = g.node ∧ ¬ g.Missing path ∨ g.Missing path := by
  cases h with
  | found hd hfind _ => exact .inl ⟨rfl, View.not_missing hd hfind⟩
  | made hd hfind _ _ _ _ => exact .inr ⟨_, _, hd, hfind⟩

def CreatePost (g : View) (path : List UInt8) (type major minor : Int16) :
    Option (Fin NINODE) → Fs → Prop
  | none, t => ∃ node, Inv { g with node := node } t ∧ Frees g.node node ∧
      (g.Settled → node = g.node ∧ ¬ g.Missing path)
  | some k, t => ∃ node i, Inv { g with node := node, refs := [(k, i)], locks := {k} } t ∧
      Keeps g.node node ∧ ((node i).type = type ∨ (node i).type = T_FILE) ∧
      (g.Settled → (∀ j < g.sb.ninodes, 0 ≤ (g.node j).nlink) →
        Created g path type major minor node i)

theorem create_spec (h : Inv g s) (hin : g.InCall) (path : List UInt8)
    (htype : type ≠ 0) (major minor : Int16) :
    Wp (create path type major minor) s (CreatePost g path type major minor) (CallStop g) := by
  unfold create
  refine (nameiparent_spec h hin.toRunning hin.op hin.locks path).bind ?_
    fun _ he => he.callStop h hin.toRunning
  rintro (_ | ⟨dp, x⟩) t
  · rintro ⟨node, ht, hfr, hset⟩
    refine wp_pure.mpr ⟨node, ht, hfr, fun hs => ⟨(hset hs).1, ?_⟩⟩
    rintro ⟨d, x, hd, -⟩
    rw [show g.parent path = none from (hset hs).2] at hd
    cases hd
  rintro ⟨node, d, ht, hfr, hparent, hdir, hsame⟩
  have hset : g.Settled → node = g.node ∧ g.parent path = some (d, x) :=
    fun hs => ⟨hsame hs, hparent⟩
  dsimp only
  rw [hin.refs] at ht
  have hd : d < g.sb.ninodes := (ht.at_lt (.inl List.mem_cons_self)).2
  have hty : (node d).type ≠ 0 := by rw [hdir]; decide
  rw [wp_bind]
  refine (ilock_spec ht (.inl List.mem_cons_self) (by simp [hin.locks])).mono ?_
    fun _ he => absurd he.2 hty
  rintro _ u ⟨hu, -⟩
  dsimp only at hu
  rw [hin.locks, insert_empty_eq] at hu
  have hdp := Finset.mem_singleton_self dp
  rw [wp_bind]
  refine (dirlookup_spec hu hdp (.inl List.mem_cons_self) hdir x).mono ?_ ?_
  · rintro (_ | ⟨ip, off⟩) v
    · rintro ⟨hv, hfind, hal⟩
      rw [hv]
      dsimp only at hfind hal ⊢
      rw [wp_bind]
      refine (createNew_spec (g := { g with node := node }) hu hin.op hdir hfind hal htype
        major minor).mono ?_ ?_
      · rintro ip w ⟨i, hi0, hi, hfree, hw⟩
        have hne : i ≠ d := by
          rintro rfl
          exact hty hfree
        refine wp_pure.mpr ⟨_, i, hw, ?_, .inl ?_, fun hs hpos => ?_⟩
        · have hmade := View.made_keeps { g with node := node } hfind i type major minor
          refine hfr.keeps.trans (hmade.trans (Frees.keeps ?_))
          exact View.frees_drop _ _ _
        · rw [View.drop_ne hne]
          change (upd (upd node i _) d _ i).type = type
          rw [upd_ne _ _ hne, upd_same, newNode_type]
        · obtain ⟨rfl, hres⟩ := hset hs
          rw [View.drop_keep fun h0 => ?_]
          · exact .made hres hfind hal hi0 hi hfree
          · refine View.Uses.mono (r := g.refs) (by simp [hin.refs]) (hs d hd hty ?_)
            change (upd (upd g.node i _) d _ d).nlink = 0 at h0
            rw [upd_same] at h0
            exact Node.withNew_nlink (hpos d hd) h0
      · rintro e (he | ⟨he, -⟩)
        · exact .inl he
        · exact .inr (.inl he)
    · rintro ⟨e, hfind, -, hv⟩
      dsimp only at hfind hv ⊢
      obtain ⟨i, hi⟩ : ∃ i, i = ((node d).ent e).inum := ⟨_, rfl⟩
      rw [← hi] at hv
      rw [wp_bind]
      refine (iunlockput_spec hv hin.op (List.Perm.swap _ _ _) hdp).mono ?_ fun _ => .inl
      intro _ w hw
      dsimp only at hw
      rw [Finset.erase_singleton] at hw
      -- The directory is put back, and then the inode is locked.
      have hdrop : g.Settled →
          View.drop { g with node := node, refs := [(ip, i), (dp, d)], locks := {dp} } d [(ip, i)] =
            g.node := by
        intro hs
        obtain ⟨rfl, -⟩ := hset hs
        exact View.drop_keep fun h0 => View.Uses.mono (r := g.refs) (by simp [hin.refs])
          (hs d hd hty h0)
      have hfr' : Frees g.node
          (View.drop { g with node := node, refs := [(ip, i), (dp, d)], locks := {dp} } d [(ip, i)]) :=
        hfr.trans (View.frees_drop _ _ _)
      generalize View.drop { g with node := node, refs := [(ip, i), (dp, d)], locks := {dp} } d
        [(ip, i)] = node' at hw hdrop hfr'
      have hilt : i < g.sb.ninodes := (hw.at_lt (.inl List.mem_cons_self)).2
      have hnamed : g.Wf → (g.node i).type ≠ 0 := by
        intro hwf
        obtain ⟨rfl, -⟩ := hset hwf.settled
        rw [hi]
        exact hwf.noDangling d hd hdir e (Node.find_some hfind).1 (Node.find_some hfind).2.1
      rw [wp_bind]
      refine (ilock_spec hw (.inl List.mem_cons_self) (by simp)).mono ?_ fun x he => ?_
      · rintro _ y ⟨hy, hity⟩
        dsimp only at hy hity
        rw [insert_empty_eq] at hy
        have hip := Finset.mem_singleton_self ip
        have hdtype : (y.icache ip).din.type = (node' i).type := by
          rw [hy.din_type hip, hy.inum_eq (.inl List.mem_cons_self)]
        simp only [wp_bind, wp_inode]
        rw [hdtype]
        refine wp_ite (fun hc => ?_) fun hc => ?_
        · refine wp_pure.mpr ⟨node', i, hy, hfr'.keeps, .inr hc.2, fun hs _ => ?_⟩
          obtain ⟨rfl, hres⟩ := hset hs
          obtain rfl := hdrop hs
          rw [hi] at hc ⊢
          exact .found hres hfind hc.2
        · refine (iunlockput_spec hy hin.op (List.Perm.refl _) hip).bind ?_ fun _ => .inl
          intro _ z hz
          dsimp only at hz
          rw [Finset.erase_singleton] at hz
          refine wp_pure.mpr ⟨_, by rw [hin.refs, hin.locks]; exact hz,
            hfr'.trans (View.frees_drop _ _ _), fun hs => ⟨?_, ?_⟩⟩
          swap
          · obtain ⟨rfl, hres⟩ := hset hs
            exact View.not_missing hres hfind
          obtain rfl := hdrop hs
          exact View.drop_keep fun h0 => View.Uses.mono (r := g.refs) (by simp [hin.refs])
            (hs i hilt hity h0)
      · obtain ⟨rfl, h0⟩ := he
        refine .inr (.inr ⟨trivial, fun hwf => hnamed hwf ?_⟩)
        rw [← hdrop hwf.settled]
        exact h0
  · rintro e (he | ⟨rfl, hal⟩)
    · exact .inl he
    · refine .inr (.inr ⟨trivial, fun hwf => hal ?_⟩)
      dsimp only
      rw [(hset hwf.settled).1] at hdir ⊢
      exact hwf.aligned d hd hdir

end Xv6
