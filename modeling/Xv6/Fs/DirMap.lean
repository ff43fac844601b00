import Xv6.Fs.ByteArray
import Xv6.Fs.Tiny

/-!
# Directories are maps

In every state that calls can reach, a directory is a map from names, cut at
`DIRSIZ` bytes or at a NUL, to inode numbers. `Node.lookup` is that map,
`dirlookup` computes it, `dirlink` extends it at one name, and a call of `unlink`
that succeeds removes one name from it.
-/

namespace Xv6

open Hoare Table Scan Trans

variable {g : View} {s t : Fs} {k : Fin NINODE} {i : Nat}

/-! ## The map -/

/-- The inode that `name` denotes. -/
def Node.lookup (n : Node) (name : List UInt8) : Option Nat :=
  (n.find name).map fun e => (n.ent e).inum

variable {n : Node} {name : List UInt8}

theorem Node.lookup_eq_none : n.lookup name = none ↔ n.find name = none := Option.map_eq_none_iff

variable {m : Nat}

theorem Node.IsMap.lookup_eq_some (h : n.IsMap) : n.lookup name = some m ↔
      ∃ e < n.size / DESIZE, (n.ent e).inum = m ∧ m ≠ 0 ∧ nameKey name = nameKey (n.ent e).name := by
  unfold Node.lookup
  rw [Option.map_eq_some_iff]
  constructor
  · rintro ⟨e, he, rfl⟩
    obtain ⟨h1, h2, h3⟩ := Node.find_some he
    exact ⟨e, h1, rfl, h2, h3⟩
  · rintro ⟨e, he, rfl, h0, hk⟩
    cases hf : n.find name with
    | none => exact absurd hk (Node.find_none hf he h0)
    | some e' =>
      obtain ⟨h1, h2, h3⟩ := Node.find_some hf
      rw [h.unique e' e h1 he h2 h0 (h3.symm.trans hk)]
      exact ⟨e, rfl, rfl⟩

theorem Node.freeEnt_inum (h : n.freeEnt < n.size / DESIZE) : (n.ent n.freeEnt).inum = 0 := by
  unfold Node.freeEnt at h ⊢
  cases hf : firstFrom (fun e => decide ((n.ent e).inum = 0)) 0 (n.size / DESIZE) with
  | none =>
    rw [hf, Option.getD_none] at h
    exact absurd h (Nat.lt_irrefl _)
  | some e => exact of_decide_eq_true (firstFrom_some hf).2.2.1

theorem Node.IsMap.lookup_addEnt (h : n.IsMap)
    (hfind : n.find name = none) (hm : 0 < m ∧ m < 65536) (y : List UInt8) :
    (n.addEnt name m).lookup y = if nameKey y = nameKey name then some m else n.lookup y := by
  have hlen := length_bytes ⟨m, strncpy name⟩
  have hent : (n.addEnt name m).ent n.freeEnt = ⟨m, strncpy name⟩ := by
    rw [Node.addEnt, Node.ent_setEnt_same hlen, ofBytes_bytes_strncpy, Nat.mod_eq_of_lt hm.2]
  have hother : ∀ {e}, e ≠ n.freeEnt → (n.addEnt name m).ent e = n.ent e :=
    fun he => Node.ent_setEnt_ne hlen he
  have hsize : (n.addEnt name m).size = max n.size (DESIZE * n.freeEnt + DESIZE) :=
    Node.size_setEnt hlen
  have hle := n.freeEnt_le
  have hal : n.size % DESIZE = 0 := h.aligned
  have hlt : ∀ {e}, e < (n.addEnt name m).size / DESIZE ↔ e < n.size / DESIZE ∨ e = n.freeEnt := by
    intro e
    rw [hsize]
    simp only [DESIZE, DIRSIZ] at *
    omega
  refine Option.ext fun v => ?_
  rw [(h.addEnt hfind m).lookup_eq_some]
  split
  next hk =>
    rw [Option.some.injEq]
    constructor
    · rintro ⟨e, he, hv, h0, hke⟩
      by_cases hf : e = n.freeEnt
      · rw [hf, hent] at hv
        exact hv
      · rw [hother hf] at hv hke
        exact absurd (hk.symm.trans hke)
          (Node.find_none hfind ((hlt.mp he).resolve_right hf) (hv ▸ h0))
    · rintro rfl
      refine ⟨n.freeEnt, hlt.mpr (.inr rfl), by rw [hent], by omega, ?_⟩
      rw [hent, nameKey_strncpy, hk]
  next hk =>
    rw [h.lookup_eq_some]
    constructor
    · rintro ⟨e, he, hv, h0, hke⟩
      by_cases hf : e = n.freeEnt
      · rw [hf, hent, nameKey_strncpy] at hke
        exact absurd hke hk
      · rw [hother hf] at hv hke
        exact ⟨e, (hlt.mp he).resolve_right hf, hv, h0, hke⟩
    · rintro ⟨e, he, hv, h0, hke⟩
      have hf : e ≠ n.freeEnt := by
        rintro rfl
        exact h0 (hv ▸ Node.freeEnt_inum he)
      exact ⟨e, hlt.mpr (.inl he), by rw [hother hf, hv], h0, by rw [hother hf, hke]⟩

variable {e : Nat}

theorem Node.IsMap.lookup_cleared (h : n.IsMap)
    (hfind : n.find name = some e) (isDir : Bool) (y : List UInt8) :
    (n.cleared e isDir).lookup y = if nameKey y = nameKey name then none else n.lookup y := by
  obtain ⟨h1, h2, h3⟩ := Node.find_some hfind
  have hlen : (List.replicate DESIZE (0 : UInt8)).length = DESIZE := List.length_replicate ..
  have hmap := h.clear h1
  have hcl : (n.cleared e isDir).IsMap := ⟨hmap.aligned, hmap.unique⟩
  have hent : ((n.cleared e isDir).ent e).inum = 0 := by
    rw [show (n.cleared e isDir).ent e = (n.setEnt e (List.replicate DESIZE 0)).ent e from rfl,
      Node.ent_setEnt_same hlen]
    decide
  have hother : ∀ {e'}, e' ≠ e → (n.cleared e isDir).ent e' = n.ent e' :=
    fun he => Node.ent_setEnt_ne hlen he
  have hsize : (n.cleared e isDir).size = n.size := by
    have := Node.lt_iff.mp h1
    exact (Node.size_setEnt hlen).trans (Nat.max_eq_left this)
  refine Option.ext fun v => ?_
  rw [hcl.lookup_eq_some, hsize]
  -- The entries that are left are those for other names.
  have hleft : (∃ e' < n.size / DESIZE, ((n.cleared e isDir).ent e').inum = v ∧ v ≠ 0 ∧
      nameKey y = nameKey ((n.cleared e isDir).ent e').name) ↔
      nameKey y ≠ nameKey name ∧ n.lookup y = some v := by
    rw [h.lookup_eq_some]
    constructor
    · rintro ⟨e', he', hv, h0, hk⟩
      have hne : e' ≠ e := by
        rintro rfl
        exact h0 (hv ▸ hent)
      rw [hother hne] at hv hk
      refine ⟨fun hc => hne ?_, e', he', hv, h0, hk⟩
      exact h.unique e' e he' h1 (hv ▸ h0) h2 (hk.symm.trans (hc.trans h3))
    · rintro ⟨hne, e', he', hv, h0, hk⟩
      have hee : e' ≠ e := by
        rintro rfl
        exact hne (hk.trans h3.symm)
      exact ⟨e', he', by rw [hother hee, hv], h0, by rw [hother hee, hk]⟩
  rw [hleft]
  split
  next hk => exact ⟨fun hc => absurd hk hc.1, fun hc => by cases hc⟩
  next hk => exact ⟨And.right, fun hv => ⟨hk, hv⟩⟩

/-! ## Looking up -/

/-- The node of the inode `i` in the middle of a call. -/
abbrev Fs.shown (s : Fs) (i : Nat) : Node := absNode s.blk (s.dinode i)

theorem Fs.Loaded.readEnt (h : s.Loaded k i) (he : e < (s.shown i).size / DESIZE) (E : Stop → Prop) :
    Wp (readi k (DESIZE * e) DESIZE) s (fun r t => t = s ∧ r.1 = (DESIZE : Int) ∧
      Dirent.ofBytes r.2 = (s.shown i).ent e) E := by
  have hin : DESIZE * e + DESIZE ≤ (s.dinode i).size.toNat := Node.lt_iff.mp he
  have hmax := h.noHoles.1
  have hbound : MAXFILE * BSIZE + DESIZE < 2 ^ 32 := by decide
  have hlen : (((s.bytes i).drop (DESIZE * e)).take DESIZE).length = DESIZE := by
    rw [List.length_take, List.length_drop, Fs.length_bytes]
    omega
  unfold Wp
  rw [readi_bytes h (by omega) (by omega), if_neg (by rw [Fs.length_bytes]; omega)]
  refine ⟨rfl, congrArg Int.ofNat hlen, congrArg Dirent.ofBytes ?_⟩
  refine List.ext_getElem (by rw [hlen, List.length_map, List.length_range]) fun j h1 h2 => ?_
  have hj : j < DESIZE := by rwa [hlen] at h1
  rw [List.getElem_take, List.getElem_drop, Fs.getElem_bytes, List.getElem_map, List.getElem_range]
  exact (if_pos ⟨h.type, h.not_dev, by omega⟩).symm

theorem iget_inum (dev m : Nat) : Wp (iget dev m) s (fun k t => (t.icache k).inum = m) Stop.scarce := by
  unfold iget
  rw [wp_bind, wp_get]
  split
  next k hk =>
    have hp := firstFin_some hk
    rw [decide_eq_true_iff] at hp
    simp only [wp_bind, wp_setInode, wp_pure]
    change (upd s.icache k _ k).inum = m
    rw [upd_same]
    exact hp.2.2
  next =>
    split
    next k hk =>
      simp only [wp_bind, wp_setInode, wp_pure]
      change (upd s.icache k _ k).inum = m
      rw [upd_same]
    next => exact wp_panic.mpr trivial

/-- `dirlookup` yields the inode `m`, or that there is none. -/
def Looks (s : Fs) (k : Fin NINODE) (name : List UInt8) (m : Option Nat) : Prop :=
  Wp (dirlookup k name) s (fun r t => r.map (fun q => (t.icache q.1).inum) = m) Stop.scarce

theorem dirlookupFrom_looks (h : s.Loaded k i) (hal : (s.shown i).Aligned) (name : List UInt8) :
    ∀ (fuel e : Nat), (s.shown i).size / DESIZE + 1 ≤ fuel + e → e ≤ (s.shown i).size / DESIZE →
      (∀ j < e, (decide (((s.shown i).ent j).inum ≠ 0) && namecmp name ((s.shown i).ent j).name) = false) →
      Wp (dirlookupFrom k name fuel (DESIZE * e)) s
        (fun r t => r.map (fun q => (t.icache q.1).inum) = (s.shown i).lookup name) Stop.scarce
  | 0, e, hfuel, he, _ => by omega
  | fuel + 1, e, hfuel, he, hbefore => by
    have hal' : (s.shown i).size % DESIZE = 0 := hal
    unfold dirlookupFrom
    simp only [wp_bind, wp_inode, h.din]
    refine wp_ite (fun hlt => ?_) fun hge => ?_
    · have hin : e < (s.shown i).size / DESIZE := by
        change DESIZE * e < (s.shown i).size at hlt
        rw [Node.lt_iff]
        simp only [DESIZE, DIRSIZ] at *
        omega
      refine wp_bind.mpr ((h.readEnt hin _).imp ?_)
      rintro ⟨r, bs⟩ t ⟨hts, hr, hbs⟩
      dsimp only at hr hbs
      rw [hts]
      refine wp_ite (fun hc => absurd hr hc) fun _ => ?_
      rw [hbs]
      refine wp_ite (fun hc => ?_) fun hc => ?_
      · have hfind : (s.shown i).find name = some e :=
          firstFrom_eq_some (Nat.zero_le _) (by omega)
            (by rw [Bool.and_eq_true, decide_eq_true_iff]; exact hc) fun j _ hj => hbefore j hj
        refine (iget_inum _ _).seq (fun k' t ht => wp_pure.mpr ?_)
        rw [Option.map_some, ht, Node.lookup, hfind, Option.map_some]
      · refine dirlookupFrom_looks h hal name fuel (e + 1) (by omega) hin fun j hj => ?_
        rcases Nat.lt_succ_iff_lt_or_eq.mp hj with hj | rfl
        · exact hbefore j hj
        · rw [Bool.and_eq_false_iff, decide_eq_false_iff_not]
          by_cases h0 : ((s.shown i).ent j).inum ≠ 0
          · exact .inr (by by_contra hn; exact hc ⟨h0, by simpa using hn⟩)
          · exact .inl h0
    · have hend : (s.shown i).size / DESIZE ≤ e := by
        change ¬ DESIZE * e < (s.shown i).size at hge
        simp only [DESIZE, DIRSIZ] at *
        omega
      have hfind : (s.shown i).find name = none :=
        firstFrom_eq_none fun j _ hj => hbefore j (by omega)
      exact wp_pure.mpr (Node.lookup_eq_none.mpr hfind).symm

theorem dirlookup_looks (h : s.Loaded k i) (hdir : (s.shown i).type = T_DIR)
    (hal : (s.shown i).Aligned) (name : List UInt8) : Looks s k name ((s.shown i).lookup name) := by
  unfold Looks dirlookup
  simp only [wp_bind, wp_inode, h.din]
  refine wp_ite (fun hc => absurd hdir hc) fun _ => ?_
  exact dirlookupFrom_looks h hal name _ 0 (by rfl) (Nat.zero_le _) fun j hj => absurd hj (by omega)

/-! ## Adding a name -/

theorem Stored.shown (h : s.Loaded k i) {off : Nat} {src : List UInt8} {d : Dinode}
    (hs : Stored s k i off src t d) (hfit : off ≤ (s.dinode i).size.toNat) :
    t.shown i = (s.shown i).write off src := by
  have hd : t.dinode i = d := by rw [hs.table i h.lt, upd_same]
  rw [Fs.shown, hd]
  exact absNode_write hs.fields hs.size hfit h.type h.not_dev hs.contents

theorem Stored.loaded (h : s.Loaded k i) {off : Nat} {src : List UInt8} {d : Dinode}
    (hs : Stored s k i off src t d) : t.Loaded k i := by
  have hsb := hs.frame.sb
  have hd : t.dinode i = d := by rw [hs.table i h.lt, upd_same]
  have hty : d.type = (s.dinode i).type := by rw [hs.fields]
  have hic : t.icache k = { s.icache k with din := d } := by
    rw [hs.icache]
    exact upd_same _ _ _
  refine ⟨by rw [hsb]; exact h.geom, ?_, by rw [hsb]; exact h.lt, by rw [hic]; exact h.inum,
    by rw [hic, hd], by rw [hd, hty]; exact h.type, by rw [hd, hty]; exact h.not_dev,
    by rw [hd]; exact hs.noHoles⟩
  rw [hsb]
  exact hs.owned.table_congr hs.table

theorem Inv.shown_eq (h : Inv g s) (hi : i < g.sb.ninodes) : s.shown i = g.node i :=
  (h.disk.node_eq i hi).symm

/-- What `dirlink` makes of the map `n`. -/
def Extends (n : Node) (k : Fin NINODE) (i : Nat) (name : List UInt8) (m : Nat) (r : Int) (t : Fs) :
    Prop :=
  (r = 0 ∧ n.lookup name = none ∧
    ∀ y, Looks t k y (if nameKey y = nameKey name then some m else n.lookup y)) ∨
  (r = -1 ∧ n.lookup name ≠ none ∧ t.shown i = n ∧ ∀ y, Looks t k y (n.lookup y))

theorem dirlink_extends (h : Inv g s) (hop : g.op = true) (hk : k ∈ g.locks) (hat : g.At k i)
    (hdir : (g.node i).type = T_DIR) (hmap : (g.node i).IsMap)
    (hroom : DESIZE * (g.node i).freeEnt + DESIZE ≤ MAXFILE * BSIZE) (name : List UInt8)
    (hm : 0 < m ∧ m < 65536) :
    Wp (dirlink k name m) s (Extends (g.node i) k i name m) fun e => e.scarce ∨ e = .asleep := by
  have hdev : (g.node i).type ≠ T_DEV := by
    rw [hdir]
    decide
  have hlt := (h.at_lt hat).2
  have hl := h.loaded hk hat hdev
  have hshown := h.shown_eq hlt
  unfold dirlink
  refine (dirlookup_spec h hk hat hdir name).bind ?_ ?_
  swap
  · rintro e (he | ⟨-, hal⟩)
    · exact .inl he
    · exact absurd hmap.aligned hal
  rintro (_ | ⟨k', off⟩) t
  · rintro ⟨hts, hfind, hal⟩
    rw [hts]
    simp only [wp_bind, wp_inode]
    rw [h.dir_size hk hat]
    refine (dirlinkScan_spec h hk hat hdir hal _ _ 0 (by omega) (Nat.zero_le _)
      fun j hj => absurd hj (by omega)).imp ?_
    rintro _ t ⟨hts, rfl⟩
    rw [hts]
    have hfit : (s.dinode i).Fits (DESIZE * (g.node i).freeEnt)
        (Dirent.bytes ⟨m, strncpy name⟩).length := by
      rw [h.fits_iff hlt, length_bytes]
      exact ⟨(Nat.mul_le_mul_left _ (g.node i).freeEnt_le).trans (Nat.mul_div_le _ _), hroom⟩
    refine (writei_stored hl (h.inOp hop) _ _).mono ?_ fun _ => .inl
    rintro r u (⟨hno, -⟩ | ⟨-, rfl, ⟨d, hu⟩, -⟩)
    · exact absurd hfit hno
    rw [length_bytes]
    refine wp_ite (fun hc => absurd rfl hc) fun _ => wp_pure.mpr (.inl ⟨rfl, ?_, fun y => ?_⟩)
    · exact Node.lookup_eq_none.mpr hfind
    · have hnode : u.shown i = (g.node i).addEnt name m := by
        rw [hu.shown hl hfit.1, hshown]
        rfl
      rw [← hmap.lookup_addEnt hfind hm, ← hnode]
      have hadd := hmap.addEnt hfind m
      rw [← hnode] at hadd
      exact dirlookup_looks (hu.loaded hl) (by rw [hnode]; exact hdir) hadd.aligned y
  · rintro ⟨e, hfind, -, ht⟩
    rw [wp_bind]
    by_cases hlk : k' ∈ g.locks
    · exact (iput_asleep ht hlk).mono (fun _ _ hf => hf) fun x hx => .inr hx
    · refine (iput_spec ht hop (List.Perm.refl _) hlk).mono ?_ fun _ he => .inl he
      rintro _ u ⟨node, hu, hnode⟩
      have hsame : node i = g.node i := by
        rcases hnode with rfl | ⟨rfl, -⟩
        · rfl
        · exact View.drop_ne fun hc => hlk ((h.mem_locks_iff ht).mpr ⟨k, hk, hc ▸ hat⟩)
      have hui : u.shown i = g.node i := (hu.shown_eq hlt).trans hsame
      refine wp_pure.mpr (.inr ⟨rfl, fun hc => ?_, hui, fun y => ?_⟩)
      · rw [Node.lookup_eq_none, hfind] at hc
        cases hc
      · rw [← hui]
        refine dirlookup_looks (hu.loaded hk hat (hsame.symm ▸ hdev)) (by rw [hui]; exact hdir) ?_ y
        rw [hui]
        exact hmap.aligned

/-! ## Removing a name -/

/-- The directories that are left have the names they had. -/
def SameMaps (node node' : Nat → Node) : Prop :=
  ∀ j, (node' j).type = T_DIR → (node j).type = T_DIR ∧ ∀ y, (node' j).lookup y = (node j).lookup y

theorem SameMaps.trans {n₁ n₂ n₃ : Nat → Node} (h : SameMaps n₁ n₂) (h' : SameMaps n₂ n₃) :
    SameMaps n₁ n₃ := fun j hj =>
  have h2 := h' j hj
  have h1 := h j h2.1
  ⟨h1.1, fun y => (h2.2 y).trans (h1.2 y)⟩

variable {node : Nat → Node}

theorem Frees.sameMaps {node' : Nat → Node} (h : Frees node node') : SameMaps node node' := by
  intro j hj
  rcases h j with he | ⟨-, he⟩
  · rw [he] at hj ⊢
    exact ⟨hj, fun _ => rfl⟩
  · exact absurd (he ▸ hj) (node j).type_freed_ne

theorem SameMaps.nlink (node : Nat → Node) (i : Nat) (c : Int16) :
    SameMaps node (upd node i { node i with nlink := c }) := by
  intro j hj
  by_cases hji : j = i
  · subst hji
    rw [upd_same] at hj ⊢
    exact ⟨hj, fun _ => rfl⟩
  · rw [upd_ne _ _ hji] at hj ⊢
    exact ⟨hj, fun _ => rfl⟩

/-- The directories that are left have the names they had, but for `x` in `d`. -/
def Removed (node : Nat → Node) (d : Nat) (x : List UInt8) (node' : Nat → Node) : Prop :=
  ∀ j, (node' j).type = T_DIR → (node j).type = T_DIR ∧ ∀ y, (node' j).lookup y =
    if j = d ∧ nameKey y = nameKey x then none else (node j).lookup y

theorem Removed.trans {n₁ n₂ n₃ : Nat → Node} {d : Nat} {x : List UInt8} (h : Removed n₁ d x n₂)
    (h' : SameMaps n₂ n₃) : Removed n₁ d x n₃ := fun j hj =>
  have h2 := h' j hj
  have h1 := h j h2.1
  ⟨h1.1, fun y => (h2.2 y).trans (h1.2 y)⟩

variable {d : Nat} {x : List UInt8}

theorem SameMaps.removed {n₁ n₂ n₃ : Nat → Node} (h : SameMaps n₁ n₂)
    (h' : Removed n₂ d x n₃) : Removed n₁ d x n₃ := fun j hj =>
  have h2 := h' j hj
  have h1 := h j h2.1
  ⟨h1.1, fun y => by rw [h2.2 y, h1.2 y]⟩

theorem removed_cleared (hmap : (node d).IsMap) (hfind : (node d).find x = some e) (isDir : Bool) :
    Removed node d x (upd node d ((node d).cleared e isDir)) := by
  intro j hj
  by_cases hjd : j = d
  · subst hjd
    rw [upd_same] at hj ⊢
    refine ⟨hj, fun y => ?_⟩
    rw [hmap.lookup_cleared hfind]
    simp only [true_and]
  · rw [upd_ne _ _ hjd] at hj ⊢
    refine ⟨hj, fun y => ?_⟩
    rw [if_neg fun hc => hjd hc.1]

/-- What a call of `unlink` that succeeds does to the maps. -/
def UnlinksName (g : View) (path : Option (List UInt8)) (node : Nat → Node) : Prop :=
  ∃ p d x, path = some p ∧ g.parent p = some (d, x) ∧ (g.node d).lookup x ≠ none ∧
    Removed g.node d x node

theorem unlinkBad_ret {Q : Fs → Prop} (dp : Fin NINODE) :
    Wp (unlinkBad dp) s (fun r t => r = 0 → Q t) fun _ => True := by
  unfold unlinkBad
  refine (wp_any (iunlockput dp)).bind (fun _ _ _ => ?_) fun _ _ => trivial
  refine (wp_any endOp).bind (fun _ _ _ => wp_pure.mpr fun hc => ?_) fun _ _ => trivial
  exact absurd hc (by decide)

theorem removed_ret {ip dp : Fin NINODE} (hne : ip ≠ dp)
    (h : Inv { g with node := node, refs := [(ip, i), (dp, d)], locks := {ip, dp}, op := true } s) :
    Wp (removed ip dp) s (fun _ t => SameMaps node t.node) fun _ => True := by
  have hdp : dp ∈ ({ip, dp} : Finset (Fin NINODE)) :=
    Finset.mem_insert_of_mem (Finset.mem_singleton_self _)
  have herase : ({ip, dp} : Finset (Fin NINODE)).erase dp = {ip} := by
    rw [Finset.erase_insert_of_ne hne, Finset.erase_singleton, insert_empty_eq]
  have hip := Finset.mem_singleton_self ip
  simp only [removed, wp_bind, wp_setDin, wp_pure]
  refine (iunlockput_spec h rfl (List.Perm.swap _ _ _) hdp).mono ?_ fun _ _ => trivial
  intro _ t ht
  dsimp only at ht
  obtain ⟨node₁, hnode₁⟩ : ∃ n, n = View.drop { g with
      node := node, refs := [(ip, i), (dp, d)], locks := {ip, dp}, op := true } d [(ip, i)] := ⟨_, rfl⟩
  have hput : SameMaps node node₁ := by
    rw [hnode₁]
    exact Frees.sameMaps (View.frees_drop _ _ _)
  rw [herase, ← hnode₁] at ht
  refine (nlink_spec ht rfl hip (.inl List.mem_cons_self) (· - 1)).mono ?_ fun _ _ => trivial
  intro _ u hu
  refine (iunlockput_spec hu rfl (List.Perm.refl _) hip).mono ?_ fun _ _ => trivial
  intro _ v hv
  refine (endOp_spec hv rfl _).imp ?_
  rintro _ w ⟨hw, -⟩
  rw [← hw.node_eq]
  refine hput.trans ((SameMaps.nlink node₁ i ((node₁ i).nlink - 1)).trans (Frees.sameMaps ?_))
  exact View.frees_drop _ _ _

theorem removeAt_ret {ip dp : Fin NINODE} (hne : ip ≠ dp)
    (h : Inv { g with node := node, refs := [(ip, i), (dp, d)], locks := {ip, dp}, op := true } s)
    (hdir : (node d).type = T_DIR) (hmap : (node d).IsMap) (hfind : (node d).find x = some e) :
    Wp (removeAt ip dp (DESIZE * e)) s
      (fun r t => r = 0 → Removed node d x t.node) fun _ => True := by
  have hip : ip ∈ ({ip, dp} : Finset (Fin NINODE)) := Finset.mem_insert_self _ _
  have hdp : dp ∈ ({ip, dp} : Finset (Fin NINODE)) :=
    Finset.mem_insert_of_mem (Finset.mem_singleton_self _)
  have hati : View.At { g with
      node := node, refs := [(ip, i), (dp, d)], locks := {ip, dp}, op := true } ip i :=
    .inl List.mem_cons_self
  have hdtype : (s.icache ip).din.type = (node i).type := by
    rw [h.din_type hip, h.inum_eq hati]
  simp only [removeAt, wp_bind, wp_inode]
  refine wp_ite (fun _ => wp_panic.mpr trivial) fun _ => ?_
  have hclear : Wp (clearEntry dp (DESIZE * e) ((s.icache ip).din.type = T_DIR) (removed ip dp)) s (fun r t => r = 0 → Removed node d x t.node) fun _ => True := by
    exact clear_spec h rfl hdp (.inl (List.mem_cons_of_mem _ List.mem_cons_self)) hdir (Node.find_some hfind).1
      beq_iff_eq.symm (fun _ _ => trivial) fun u hu =>
        (removed_ret hne hu).imp fun _ _ hsame _ => (removed_cleared hmap hfind _).trans hsame
  by_cases hd : (s.icache ip).din.type = T_DIR
  · rw [if_pos hd, wp_bind]
    refine (isdirempty_spec h hip hati (hdtype.symm.trans hd)).mono ?_ fun _ _ => trivial
    rintro b t ⟨hts, -⟩
    rw [wp_bind, wp_pure, hts]
    refine wp_ite (fun _ => ?_) fun _ => hclear
    exact (wp_any (iunlockput ip)).bind (fun _ _ _ => unlinkBad_ret dp) fun _ _ => trivial
  · rw [if_neg hd, wp_bind, wp_pure]
    exact wp_ite (fun hc => by cases hc) fun _ => hclear

theorem sysUnlink_ret (h : Inv g s) (hidle : g.Idle) (hm : Maps g.node) (path : Option (List UInt8)) :
    Wp (sysUnlink path) s (fun r t => r = 0 → UnlinksName g path t.node) fun _ => True := by
  unfold sysUnlink
  cases path with
  | none => exact wp_pure.mpr fun hc => absurd hc (by decide)
  | some p =>
  dsimp only
  refine (beginOp_spec h hidle.op _).seq ?_
  rintro _ t ⟨ht, -⟩
  have hin := hidle.inCall
  refine (nameiparent_spec ht hin.toRunning rfl hidle.locks p).bind ?_ fun _ _ => trivial
  rintro (_ | ⟨dp, x⟩) u
  · intro _
    exact (wp_any endOp).bind (fun _ _ _ => wp_pure.mpr fun hc => absurd hc (by decide))
      fun _ _ => trivial
  rintro ⟨node, d, hu, hfr, hparent, hdir, -⟩
  dsimp only at hu ⊢
  rw [hidle.refs] at hu
  rw [wp_bind]
  refine (ilock_spec hu (.inl List.mem_cons_self) (by simp [hidle.locks])).mono ?_ fun _ _ => trivial
  rintro _ v ⟨hv, -⟩
  dsimp only at hv
  rw [hidle.locks, insert_empty_eq] at hv
  have hdp := Finset.mem_singleton_self dp
  refine wp_ite (fun _ => unlinkBad_ret dp) fun _ => ?_
  rw [wp_bind]
  refine (dirlookup_spec hv hdp (.inl List.mem_cons_self) hdir x).mono ?_ fun _ _ => trivial
  rintro (_ | ⟨ip, off⟩) w
  · exact fun _ => unlinkBad_ret dp
  rintro ⟨e, hfind, rfl, hw⟩
  dsimp only at hfind hw ⊢
  rw [wp_bind]
  by_cases hsame : ip = dp
  · exact (ilock_asleep hw (by rw [hsame]; exact hdp)).mono (fun _ _ hf => hf) fun _ _ => trivial
  refine (ilock_spec hw (.inl List.mem_cons_self) (by simpa using hsame)).mono ?_ fun _ _ => trivial
  rintro _ y ⟨hy, -⟩
  -- The directory is one that was not freed on the way.
  have hnode : node d = g.node d := by
    rcases hfr d with he | ⟨-, he⟩
    · exact he
    · exact absurd (he ▸ hdir) (g.node d).type_freed_ne
  have hmap : (node d).IsMap := hnode ▸ hm d (hnode ▸ hdir)
  refine (removeAt_ret hsame hy hdir hmap hfind).imp fun r z hz hr => ?_
  refine ⟨p, d, x, rfl, hparent, ?_, hfr.sameMaps.removed (hz hr)⟩
  rw [← hnode, Ne, Node.lookup_eq_none, hfind]
  exact Option.some_ne_none e

/-! ## Runs -/

theorem run_maps {es : List Event} (h : run Fs.step s es = some t) (hs : s.Sound)
    (hm : Maps s.node) : Maps t.node := by
  refine (run_invariant (P := fun u => u.Sound ∧ Maps u.node) (fun u e v hv hu => ?_) h ⟨hs, hm⟩).2
  obtain ⟨hready, r, hr⟩ := Fs.step_some hv
  obtain ⟨h1, -, h2, -⟩ := exec_ok hu.1 hready hr
  exact ⟨h1, h2 hu.2⟩

/-- Open a transaction and lock the inode `i`, as the calls do before they look
into a directory. -/
def lockInode (i : Nat) : Kern (Fin NINODE) := do
  beginOp
  let k ← iget ROOTDEV i
  ilock k
  return k

theorem lockInode_spec (hs : s.Sound) (hi : 0 < i) (hdir : (s.node i).type = T_DIR) :
    Wp (lockInode i) s (fun k t =>
      Inv { s.view with refs := [(k, i)], locks := {k}, op := true } t) Stop.scarce := by
  have hlt : i < s.sb.ninodes := hs.inv.lt_of_type (by
    change (s.node i).type ≠ 0
    rw [hdir]
    decide)
  unfold lockInode
  refine (beginOp_spec hs.inv rfl _).seq ?_
  rintro _ t ⟨ht, -⟩
  refine (iget_spec ht ⟨hi, hlt⟩).seq (fun k u hu => ?_)
  refine (ilock_spec hu (.inl List.mem_cons_self) (Finset.notMem_empty k)).bind ?_ ?_
  · rintro _ v ⟨hv, -⟩
    dsimp only at hv
    rw [show s.view.locks = ∅ from rfl, insert_empty_eq] at hv
    exact wp_pure.mpr hv
  · rintro e ⟨-, h0⟩
    exact absurd (hdir.symm.trans h0) (by decide)

/-- The directories of a state are maps, and the directory layer treats them as such. -/
structure Fs.DirMaps (s : Fs) : Prop where
  /-- A directory is a whole number of entries. -/
  aligned : ∀ i, (s.node i).type = T_DIR → (s.node i).size % 16 = 0
  /-- No two of them are for one name. -/
  unique : ∀ i, (s.node i).type = T_DIR → ∀ e e', e < (s.node i).size / 16 →
    e' < (s.node i).size / 16 → ((s.node i).ent e).inum ≠ 0 → ((s.node i).ent e').inum ≠ 0 →
    nameKey ((s.node i).ent e).name = nameKey ((s.node i).ent e').name → e = e'
  /-- `dirlookup` computes the map, and `dirlink` extends it if there is room. -/
  link : ∀ i, 0 < i → (s.node i).type = T_DIR → Wp (lockInode i) s (fun k t =>
    (∀ y, Looks t k y ((s.node i).lookup y)) ∧
    (DESIZE * (s.node i).freeEnt + DESIZE ≤ MAXFILE * BSIZE → ∀ name m, 0 < m → m < 2 ^ 16 →
      Wp (dirlink k name m) t (Extends (s.node i) k i name m) fun e => e.scarce ∨ e = .asleep))
    Stop.scarce
  /-- A call of `unlink` that succeeds removes one name from one directory. -/
  unlink : ∀ pid path t, (s.proc pid).live = true →
    sysUnlink path { s with cur := pid } = .ok (0, t) →
    UnlinksName ({ s with cur := pid } : Fs).view path t.node

/-- In every state that calls reach from an image whose directories are maps, they
are maps. -/
theorem directories_are_maps {sb : Superblock} {blk : Nat → Block} (himage : Image sb blk)
    (hmaps : Maps (boot sb blk).node) {es : List Event}
    (hrun : run Fs.step (boot sb blk) es = some s) : s.DirMaps := by
  have hs := run_sound hrun (boot_sound himage)
  have hm := run_maps hrun (boot_sound himage) hmaps
  refine ⟨fun i hdir => (hm i hdir).aligned, fun i hdir => (hm i hdir).unique, fun i hi hdir => ?_,
    fun pid path t hlive hun => ?_⟩
  · refine (lockInode_spec hs hi hdir).imp fun k t ht => ?_
    have hk := Finset.mem_singleton_self k
    have hdev : (s.node i).type ≠ T_DEV := by
      rw [hdir]
      decide
    have hat : View.At { s.view with refs := [(k, i)], locks := {k}, op := true } k i :=
      .inl List.mem_cons_self
    have hshown : t.shown i = s.node i := ht.shown_eq (ht.at_lt hat).2
    refine ⟨fun y => ?_, fun hroom name m h0 hlt => ?_⟩
    · have hlook := dirlookup_looks (ht.loaded hk hat hdev) (by rw [hshown]; exact hdir)
        (by rw [hshown]; exact (hm i hdir).aligned) y
      rwa [hshown] at hlook
    · exact dirlink_extends ht rfl hk hat hdir (hm i hdir) hroom name ⟨h0, hlt⟩
  · exact wp_ok (sysUnlink_ret (hs.withCur pid).inv ⟨(hs.withCur pid).rest, hlive⟩ hm path) hun rfl

namespace Tiny

theorem start_maps : Maps start.node := by
  have hroot : ∀ i < sb.ninodes, (start.node i).type = T_DIR → i = ROOTINO := by decide +kernel
  have hent : ∀ e < 2, ∀ e' < 2, nameKey ((start.node ROOTINO).ent e).name =
      nameKey ((start.node ROOTINO).ent e').name → e = e' := by decide +kernel
  have hsize : (start.node ROOTINO).size = 32 := by decide +kernel
  intro i hdir
  have hi : i < sb.ninodes := by
    by_contra hc
    rw [show start.node i = Node.unused from if_neg hc] at hdir
    exact absurd hdir (by decide)
  rw [hroot i hi hdir]
  refine ⟨?_, fun e e' he he' _ _ hk => ?_⟩
  · unfold Node.Aligned
    rw [hsize]
    decide
  · rw [hsize] at he he'
    exact hent e he e' he' hk

/-- A directory is made on the small disk. -/
theorem directories_are_maps_mkdir : ∃ s, run Fs.step start [⟨0, .mkdir (some [100])⟩] = some s ∧
    (s.node 2).type = T_DIR ∧ s.DirMaps := by
  obtain ⟨s, hrun, -, hp⟩ := @exists_of_reaches [⟨0, .mkdir (some [100])⟩]
    (fun s => decide ((s.node 2).type = T_DIR)) (by decide +kernel)
  exact ⟨s, hrun, of_decide_eq_true hp, directories_are_maps image start_maps hrun⟩

end Tiny

end Xv6
