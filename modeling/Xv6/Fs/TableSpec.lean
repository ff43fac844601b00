import Xv6.Fs.CreateSpec

/-!
# The tables of the processes

Pointers to cache entries live in the file table and in the processes' current
directories. The code moves them: `open` puts the reference that `create`
returned into a file, `chdir` and `fork` put one into a process, `close` and
`exit` take one out and drop it. Each of these keeps the number of pointers to
an entry, and `Inv.move` is the statement they share.
-/

namespace Xv6

open Hoare Table Scan

variable {g : View} {s : Fs} {k : Fin NINODE} {i : Nat}

/-! ## Counting pointers -/

def User.setFile (u : User) (f : Fin NFILE) (fl : File) : User :=
  { u with ftable := upd u.ftable f fl }

def User.setProc (u : User) (p : Fin NPROC) (pr : Proc) : User :=
  { u with proc := upd u.proc p pr }

theorem User.holds_setFile (u : User) (f : Fin NFILE) (fl : File) (k : Fin NINODE) :
    (u.setFile f fl).holds k + (if (u.ftable f).OpenOn k then 1 else 0) =
      u.holds k + if fl.OpenOn k then 1 else 0 := by
  have := card_filter_upd (fun x : File => x.OpenOn k) u.ftable f fl
  unfold User.holds User.setFile
  dsimp only
  omega

theorem User.holds_setProc (u : User) (p : Fin NPROC) (pr : Proc) (k : Fin NINODE) :
    (u.setProc p pr).holds k + (if (u.proc p).CwdIs k then 1 else 0) =
      u.holds k + if pr.CwdIs k then 1 else 0 := by
  have := card_filter_upd (fun x : Proc => x.CwdIs k) u.proc p pr
  unfold User.holds User.setProc
  dsimp only
  omega

/-- No file that can be written is open on a directory. -/
def User.Writers (u : User) (inum : Fin NINODE → Nat) (node : Nat → Node) : Prop :=
  ∀ f, 0 < (u.ftable f).ref → (u.ftable f).type = .inode → (u.ftable f).writable = true →
    (node (inum (u.ftable f).ip)).type ≠ T_DIR

variable {u : User}

theorem User.Writers.setFile {m : Fin NINODE → Nat} {node : Nat → Node}
    (h : u.Writers m node) (f : Fin NFILE) {fl : File}
    (hf : 0 < fl.ref → fl.type = .inode → fl.writable = true → (node (m fl.ip)).type ≠ T_DIR) :
    (u.setFile f fl).Writers m node := by
  intro f' h1 h2 h3
  unfold User.setFile at h1 h2 h3 ⊢
  dsimp only at h1 h2 h3 ⊢
  by_cases he : f' = f
  · rw [he, upd_same] at h1 h2 h3 ⊢
    exact hf h1 h2 h3
  · rw [upd_ne _ _ he] at h1 h2 h3 ⊢
    exact h f' h1 h2 h3

/-! ## Moving pointers -/

variable {r : List (Fin NINODE × Nat)}

theorem Inv.move (h : Inv g s) {o : User} {m : Fin NINODE → Nat}
    (hcount : ∀ l, o.holds l + countRefs r l = g.owner.holds l + countRefs g.refs l)
    (hr : ∀ j ∈ r, (s.icache j.1).inum = j.2)
    (hheld : ∀ l, 0 < o.holds l → (s.icache l).inum = m l ∧ (g.node (m l)).type ≠ 0 ∧
      ((g.node (m l)).nlink = 0 → (s.icache l).valid = true)) (hw : o.Writers m g.node) :
    Inv { g with user := u, owner := o, inum := m, refs := r }
      { s with ftable := u.ftable, proc := u.proc } where
  sb := h.sb
  geom := h.geom
  cur := h.cur
  user := rfl
  disk := h.disk
  cache :=
    { h.cache with
      ref_eq := fun l => (h.cache.ref_eq l).trans (hcount l).symm
      handle := hr
      held := hheld
      writers := hw }
  log := h.log

theorem Inv.retable (h : Inv g s) (hown : g.owner = g.user)
    (hholds : ∀ l, u.holds l = g.user.holds l) (hw : u.Writers g.inum g.node) :
    Inv { g with user := u, owner := u } { s with ftable := u.ftable, proc := u.proc } :=
  h.move (fun l => by rw [hholds, hown]) h.cache.handle
    (fun l hl => h.cache.held l (by rw [hown, ← hholds]; exact hl)) hw

theorem Inv.give (h : Inv g s) (hown : g.owner = g.user) (hp : g.refs.Perm ((k, i) :: r))
    (hholds : ∀ l, u.holds l = g.user.holds l + if l = k then 1 else 0)
    (hty : (g.node i).type ≠ 0) (hv : (g.node i).nlink = 0 → (s.icache k).valid = true)
    (hw : u.Writers (upd g.inum k i) g.node) :
    Inv { g with user := u, owner := u, inum := upd g.inum k i, refs := r }
      { s with ftable := u.ftable, proc := u.proc } := by
  have hk : g.At k i := .inl (hp.mem_iff.mpr List.mem_cons_self)
  refine h.move (fun l => ?_) (fun j hj => ?_) (fun l hl => ?_) hw
  · rw [hholds, hown, countRefs_perm hp, countRefs_cons]
    omega
  · exact h.cache.handle j (hp.mem_iff.mpr (List.mem_cons_of_mem _ hj))
  · by_cases he : l = k
    · subst he
      rw [upd_same]
      exact ⟨h.inum_eq hk, hty, hv⟩
    · rw [upd_ne _ _ he]
      rw [hholds, if_neg he, ← hown] at hl
      exact h.cache.held l hl

theorem Inv.take (h : Inv g s) (hown : g.owner = g.user) {o : User}
    (hholds : ∀ l, o.holds l + (if l = k then 1 else 0) = g.user.holds l) (hw : o.Writers g.inum g.node) :
    Inv { g with user := u, owner := o, refs := (k, g.inum k) :: g.refs }
      { s with ftable := u.ftable, proc := u.proc } := by
  have hk : 0 < g.owner.holds k := by
    have := hholds k
    rw [if_pos rfl] at this
    rw [hown]
    omega
  refine h.move (fun l => ?_) (fun j hj => ?_) (fun l hl => ?_) hw
  · have := hholds l
    rw [hown, countRefs_cons]
    omega
  · rcases List.mem_cons.mp hj with rfl | hj
    · exact (h.cache.held k hk).1
    · exact h.cache.handle j hj
  · refine h.cache.held l ?_
    have := hholds l
    rw [hown]
    omega

/-! ## Freeing inodes without links -/

theorem View.Settled.put (h : g.Settled)
    (hp : g.refs.Perm ((k, i) :: r)) : View.Settled { g with refs := r, node := g.drop i r } := by
  intro j hj hty h0
  dsimp only at hty h0
  by_cases he : j = i
  · subst he
    by_contra hu
    unfold View.drop at hty h0
    split at hty
    next hc =>
      rw [upd_same] at hty
      exact hty rfl
    next hc =>
      rw [if_neg hc] at h0
      exact hc ⟨h0, hu⟩
  · rw [View.drop_ne he] at hty h0
    obtain ⟨l, hl⟩ := h j hj hty h0
    refine ⟨l, hl.imp (fun hm => ?_) id⟩
    rcases List.mem_cons.mp (hp.mem_iff.mp hm) with hm | hm
    · exact absurd (congrArg Prod.snd hm) he
    · exact hm

/-- A step that only frees inodes without links. -/
def Quiet (g g' : View) : Prop := Frees g.node g'.node ∧ (g.Settled → g'.Settled)

theorem Quiet.trans {g₁ g₂ g₃ : View} (h : Quiet g₁ g₂) (h' : Quiet g₂ g₃) : Quiet g₁ g₃ :=
  ⟨h.1.trans h'.1, fun hs => h'.2 (h.2 hs)⟩

theorem Quiet.of_uses {g g' : View} (hsb : g'.sb = g.sb) (hnode : g'.node = g.node)
    (huses : ∀ j, g.Uses j → g'.Uses j) : Quiet g g' := by
  refine ⟨by rw [hnode]; exact Frees.refl _, fun hs j hj hty h0 => ?_⟩
  rw [hnode] at hty h0
  rw [hsb] at hj
  exact huses j (hs j hj hty h0)

end Xv6
