import Xv6.Fs.TableSpec

/-!
# What the calls on descriptors do

`close`, `dup`, `read`, `write` and `fstat`, and the file system part of `fork`
and `exit`. They change no name. What they do to the nodes is to write the
content of a file, and to free inodes without links when the last pointer to one
goes away.
-/

namespace Xv6

open Hoare Table Scan

variable {g : View} {s : Fs} {k : Fin NINODE} {i : Nat}

/-! ## Rules -/

section

variable {E : Stop → Prop}

@[simp] theorem wp_file {f : Fin NFILE} {Q : File → Fs → Prop} : Wp (file f) s Q E ↔ Q (s.ftable f) s := by
  unfold file
  simp only [wp_bind, wp_get, wp_pure]

@[simp] theorem wp_setFile {f : Fin NFILE} {F : File → File} {Q : Unit → Fs → Prop} :
    Wp (setFile f F) s Q E ↔ Q () (s.setFile f F) := wp_modify

@[simp] theorem wp_setOfile {fd : Fin NOFILE} {f : Option (Fin NFILE)} {Q : Unit → Fs → Prop} :
    Wp (setOfile fd f) s Q E ↔ Q () (s.setProc s.cur fun p => { p with ofile := upd p.ofile fd f }) := by
  unfold setOfile
  simp only [wp_bind, wp_get, wp_set]

theorem wp_argfd {fd : Int} {Q : Option (Fin NOFILE × Fin NFILE) → Fs → Prop}
    (h : ∀ r, Q r s) : Wp (argfd fd) s Q E := by
  unfold argfd
  simp only [wp_bind, wp_myproc]
  split
  · exact wp_pure.mpr (h _)
  · exact wp_pure.mpr (h _)

end

/-- The calls on descriptors that find a file in a state they do not expect. -/
def Stop.badFile : Stop → Prop
  | .panic .filedup => True
  | .panic .fileclose => True
  | .panic .fileread => True
  | .panic .filewrite => True
  | .panic .shortFilewrite => True
  | _ => False

/-- How a call on a descriptor fails. -/
def FileStop (e : Stop) : Prop := e.scarce ∨ e.badFile

/-! ## Changing the tables -/

theorem Inv.ftable_eq (h : Inv g s) : s.ftable = g.user.ftable := by
  rw [← h.user]
  rfl

theorem Inv.proc_eq (h : Inv g s) : s.proc = g.user.proc := by
  rw [← h.user]
  rfl

theorem Inv.setFile_eq (h : Inv g s) (f : Fin NFILE) (F : File → File) : s.setFile f F = { s with
      ftable := (g.user.setFile f (F (g.user.ftable f))).ftable
      proc := (g.user.setFile f (F (g.user.ftable f))).proc } := by
  unfold Fs.setFile User.setFile
  rw [h.ftable_eq, ← h.proc_eq]

theorem Inv.setProc_eq (h : Inv g s) (p : Fin NPROC) (F : Proc → Proc) : s.setProc p F = { s with
      ftable := (g.user.setProc p (F (g.user.proc p))).ftable
      proc := (g.user.setProc p (F (g.user.proc p))).proc } := by
  unfold Fs.setProc User.setProc
  rw [h.proc_eq, ← h.ftable_eq]

theorem Inv.setUser (h : Inv g s) (u : User) :
    Inv { g with user := u } { s with ftable := u.ftable, proc := u.proc } :=
  ⟨h.sb, h.geom, h.cur, rfl, h.disk, { h.cache with }, h.log⟩

/-- The view with the tables of the processes replaced. -/
def View.withUser (g : View) (u : User) : View := { g with user := u, owner := u }

theorem Inv.setFile_same (h : Inv g s) (hown : g.owner = g.user) (f : Fin NFILE) (F : File → File)
    (hsame : ∀ k, (F (g.user.ftable f)).OpenOn k ↔ (g.user.ftable f).OpenOn k)
    (hwr : (F (g.user.ftable f)).writable = (g.user.ftable f).writable) :
    Inv (g.withUser (g.user.setFile f (F (g.user.ftable f)))) (s.setFile f F) := by
  rw [h.setFile_eq f F]
  have hwriters := h.cache.writers
  rw [hown] at hwriters
  refine h.retable hown (fun l => ?_) (User.Writers.setFile hwriters f fun h1 h2 h3 => ?_)
  · have := g.user.holds_setFile f (F (g.user.ftable f)) l
    simp only [hsame] at this
    omega
  · obtain ⟨h4, h5, h6⟩ := (hsame _).mp ⟨h1, h2, rfl⟩
    rw [← h6]
    exact hwriters f h4 h5 (hwr ▸ h3)

variable {u : User} {f : Fin NFILE} {fl : File}

theorem holds_setFile_same (hsame : ∀ k, fl.OpenOn k ↔ (u.ftable f).OpenOn k) (l : Fin NINODE) :
    (u.setFile f fl).holds l = u.holds l := by
  have := u.holds_setFile f fl l
  simp only [hsame] at this
  omega

theorem holds_setProc_same {p : Fin NPROC} {pr : Proc}
    (hsame : ∀ k, pr.CwdIs k ↔ (u.proc p).CwdIs k) (l : Fin NINODE) :
    (u.setProc p pr).holds l = u.holds l := by
  have := u.holds_setProc p pr l
  simp only [hsame] at this
  omega

theorem Inv.setProc_same (h : Inv g s) (hown : g.owner = g.user) (p : Fin NPROC) (F : Proc → Proc)
    (hsame : ∀ k, (F (g.user.proc p)).CwdIs k ↔ (g.user.proc p).CwdIs k) :
    Inv (g.withUser (g.user.setProc p (F (g.user.proc p)))) (s.setProc p F) := by
  rw [h.setProc_eq p F]
  have hwriters := h.cache.writers
  rw [hown] at hwriters
  exact h.retable hown (holds_setProc_same hsame) hwriters

/-- One step of the processes: names stay, inodes without links may go. -/
structure Next (g g' : View) : Prop where
  sb : g'.sb = g.sb
  cur : g'.cur = g.cur
  quiet : Quiet g g'

theorem Next.refl (g : View) : Next g g := ⟨rfl, rfl, Frees.refl _, id⟩

theorem Next.trans {g₁ g₂ g₃ : View} (h : Next g₁ g₂) (h' : Next g₂ g₃) : Next g₁ g₃ :=
  ⟨h'.sb.trans h.sb, h'.cur.trans h.cur, h.quiet.trans h'.quiet⟩

theorem Next.withUser (hown : g.owner = g.user)
    (hholds : ∀ l, u.holds l = g.user.holds l) : Next g (g.withUser u) := by
  refine ⟨rfl, rfl, Quiet.of_uses rfl rfl fun j hj => ?_⟩
  obtain ⟨l, hl⟩ := hj
  refine ⟨l, hl.imp id fun hh => ⟨?_, hh.2⟩⟩
  change 0 < u.holds l
  rw [hholds, ← hown]
  exact hh.1

theorem View.Rest.withUser (h : g.Rest)
    (hclosed : ∀ f, (u.ftable f).ref = 0 → (u.ftable f).type ≠ .inode) : (g.withUser u).Rest :=
  ⟨rfl, hclosed, h.refs, h.locks, h.op⟩

/-- Files nobody refers to are open on nothing. -/
def User.Closed (u : User) : Prop := ∀ f, (u.ftable f).ref = 0 → (u.ftable f).type ≠ .inode

theorem User.Closed.setFile (h : u.Closed)
    (hf : fl.ref = 0 → fl.type ≠ .inode) : (u.setFile f fl).Closed := by
  intro f'
  change (upd u.ftable f fl f').ref = 0 → (upd u.ftable f fl f').type ≠ .inode
  by_cases he : f' = f
  · rw [he, upd_same]
    exact hf
  · rw [upd_ne _ _ he]
    exact h f'

/-- What a step of a call leaves behind. -/
def Idles (g : View) (t : Fs) : Prop := ∃ g', Inv g' t ∧ g'.Idle ∧ Next g g'

theorem Idles.of_next {g g' : View} (h : Next g g') {t : Fs} (ht : Idles g' t) : Idles g t := by
  obtain ⟨g'', hi, hidle, hn⟩ := ht
  exact ⟨g'', hi, hidle, h.trans hn⟩

/-! ## Files -/

theorem holds_file (hown : g.owner = g.user)
    (href : (g.user.ftable f).ref ≠ 0) (hty : (g.user.ftable f).type = .inode) :
    0 < g.owner.holds (g.user.ftable f).ip := by
  refine Nat.add_pos_left (Finset.card_pos.mpr ⟨f, Finset.mem_filter.mpr ⟨Finset.mem_univ f, ?_⟩⟩) _
  rw [hown]
  exact ⟨Nat.pos_of_ne_zero href, hty, rfl⟩

theorem View.Idle.setFile (h : g.Idle)
    (hf : fl.ref = 0 → fl.type ≠ .inode) : (g.withUser (g.user.setFile f fl)).Idle :=
  ⟨h.toRest.withUser (User.Closed.setFile h.closed hf), h.live⟩

theorem Quiet.take (hown : g.owner = g.user)
    (hholds : ∀ l, u.holds l + (if l = k then 1 else 0) = g.user.holds l) :
    Quiet g { g with user := u, owner := u, refs := (k, g.inum k) :: g.refs } := by
  refine Quiet.of_uses rfl rfl fun j hj => ?_
  obtain ⟨l, hl⟩ := hj
  refine ⟨l, ?_⟩
  rcases hl with hl | ⟨hl, rfl⟩
  · exact .inl (List.mem_cons_of_mem _ hl)
  · by_cases he : l = k
    · subst he
      exact .inl List.mem_cons_self
    · refine .inr ⟨?_, rfl⟩
      have := hholds l
      rw [if_neg he] at this
      change 0 < u.holds l
      rw [hown] at hl
      omega

theorem Quiet.put {r : List (Fin NINODE × Nat)} (hp : g.refs.Perm ((k, i) :: r)) :
    Quiet g { g with refs := r, node := g.drop i r } :=
  ⟨g.frees_drop i r, fun hs => hs.put hp⟩

theorem fileclose_spec (h : Inv g s) (hidle : g.Idle) (f : Fin NFILE) :
    Wp (fileclose f) s (fun _ t => Idles g t) FileStop := by
  unfold fileclose
  simp only [wp_bind, wp_file]
  rw [h.ftable_eq]
  obtain ⟨ff, hff⟩ : ∃ ff, ff = g.user.ftable f := ⟨_, rfl⟩
  rw [← hff]
  refine wp_ite (fun _ => wp_panic.mpr (.inr trivial)) fun h1 => wp_ite (fun h2 => ?_) fun h2 => ?_
  · have hsame : ∀ l, File.OpenOn { ff with ref := ff.ref - 1 } l ↔ (g.user.ftable f).OpenOn l := by
      intro l
      rw [← hff]
      exact ⟨fun hc => ⟨by omega, hc.2⟩, fun hc => ⟨h2, hc.2⟩⟩
    rw [wp_setFile]
    have := h.setFile_same hidle.owner f (fun fl => { fl with ref := fl.ref - 1 })
      (by rw [← hff]; rw [← hff] at hsame; exact hsame) rfl
    refine ⟨_, this, hidle.setFile (fun h0 => ?_), Next.withUser hidle.owner (holds_setFile_same ?_)⟩
    · rw [← hff] at h0
      exact absurd h0 (by dsimp only; omega)
    · rw [← hff]
      rw [← hff] at hsame
      exact hsame
  · have hone : ff.ref = 1 := by omega
    rw [wp_bind, wp_setFile]
    have hst := h.setFile_eq f fun fl => { fl with ref := 0, type := .none }
    rw [hst, ← hff]
    obtain ⟨fl, hfl⟩ : ∃ fl, fl = { ff with ref := 0, type := FdType.none } := ⟨_, rfl⟩
    rw [← hfl]
    have hnot : ∀ l, ¬ fl.OpenOn l := fun l hc => by
      rw [hfl] at hc
      exact absurd hc.1 (Nat.lt_irrefl 0)
    have hcl : fl.ref = 0 → fl.type ≠ .inode := fun _ hc => by
      rw [hfl] at hc
      cases hc
    have hwriters := h.cache.writers
    rw [hidle.owner] at hwriters
    have hw : (g.user.setFile f fl).Writers g.inum g.node :=
      User.Writers.setFile hwriters f fun h0 => absurd h0 (by rw [hfl]; exact Nat.lt_irrefl 0)
    -- A file that is open on no inode holds nothing.
    have hother : ff.type ≠ .inode →
        Wp (return ()) { s with
          ftable := (g.user.setFile f fl).ftable
          proc := (g.user.setFile f fl).proc } (fun _ t => Idles g t) FileStop := by
      intro hty
      have hsame : ∀ l, fl.OpenOn l ↔ (g.user.ftable f).OpenOn l := fun l =>
        ⟨fun hc => absurd hc (hnot l), fun hc => absurd (hff ▸ hc.2.1) hty⟩
      exact wp_pure.mpr ⟨_, h.retable hidle.owner (holds_setFile_same hsame) hw, hidle.setFile hcl,
        Next.withUser hidle.owner (holds_setFile_same hsame)⟩
    cases hty : ff.type with
    | none => exact hother (by rw [hty]; exact FdType.noConfusion)
    | pipe => exact hother (by rw [hty]; exact FdType.noConfusion)
    | inode =>
      have hholds : ∀ l, (g.user.setFile f fl).holds l + (if l = ff.ip then 1 else 0) =
          g.user.holds l := by
        intro l
        have := g.user.holds_setFile f fl l
        rw [if_neg (hnot l), ← hff] at this
        have hiff : ff.OpenOn l ↔ l = ff.ip :=
          ⟨fun hc => hc.2.2.symm, fun hc => ⟨by omega, hty, hc.symm⟩⟩
        simp only [hiff] at this
        omega
      have hk : 0 < g.owner.holds ff.ip := by
        rw [hff] at hone hty ⊢
        exact holds_file hidle.owner (by omega) hty
      have ht := h.take hidle.owner (u := g.user.setFile f fl) hholds hw
      rw [hidle.refs] at ht
      dsimp only
      refine (beginOp_spec ht hidle.op _).seq ?_
      rintro _ t ⟨ht, hic⟩
      rw [wp_bind]
      refine (iput_read ht rfl (List.Perm.refl _) (by simp [hidle.locks]) fun h0 => ?_).mono ?_
        fun _ => .inl
      · rw [hic]
        exact (h.cache.held _ hk).2.2 h0
      intro _ v hv
      refine (endOp_spec hv rfl _).imp ?_
      rintro _ w ⟨hw', -⟩
      have hq := (Quiet.take hidle.owner hholds).trans
        (Quiet.put (k := ff.ip) (i := g.inum ff.ip) (r := []) (by rw [hidle.refs]))
      exact ⟨_, hw', ⟨⟨rfl, User.Closed.setFile hidle.closed hcl, rfl, hidle.locks, rfl⟩,
        hidle.live⟩, rfl, rfl, hq⟩

/-- One more reference to a file. -/
def File.dup (fl : File) : File := { fl with ref := fl.ref + 1 }

theorem filedup_spec (h : Inv g s) (hown : g.owner = g.user) (f : Fin NFILE) : Wp (filedup f) s
      (fun _ t => Inv (g.withUser (g.user.setFile f (g.user.ftable f).dup)) t ∧
        Next g (g.withUser (g.user.setFile f (g.user.ftable f).dup))) FileStop := by
  unfold filedup
  simp only [wp_bind, wp_file]
  rw [h.ftable_eq]
  refine wp_ite (fun _ => wp_panic.mpr (.inr trivial)) fun h1 => wp_setFile.mpr ?_
  have hsame : ∀ l, (g.user.ftable f).dup.OpenOn l ↔ (g.user.ftable f).OpenOn l := fun l =>
    ⟨fun hc => ⟨by omega, hc.2⟩, fun hc => ⟨Nat.succ_pos _, hc.2⟩⟩
  exact ⟨h.setFile_same hown f File.dup hsame rfl, Next.withUser hown (holds_setFile_same hsame)⟩

theorem View.Idle.dup (h : g.Idle) (f : Fin NFILE) :
    (g.withUser (g.user.setFile f (g.user.ftable f).dup)).Idle :=
  h.setFile fun h0 => absurd h0 (Nat.succ_ne_zero _)

def Proc.setOfile (p : Proc) (fd : Fin NOFILE) (f : Option (Fin NFILE)) : Proc :=
  { p with ofile := upd p.ofile fd f }

theorem setOfile_spec (h : Inv g s) (hown : g.owner = g.user) (p : Fin NPROC) (fd : Fin NOFILE)
    (f : Option (Fin NFILE)) : Inv (g.withUser (g.user.setProc p ((g.user.proc p).setOfile fd f)))
        (s.setProc p fun p => p.setOfile fd f) ∧
      Next g (g.withUser (g.user.setProc p ((g.user.proc p).setOfile fd f))) :=
  ⟨h.setProc_same hown p (fun p => p.setOfile fd f) fun _ => Iff.rfl,
    Next.withUser hown (holds_setProc_same fun _ => Iff.rfl)⟩

theorem View.Idle.setOfile (h : g.Idle) (p : Fin NPROC) (fd : Fin NOFILE) (f : Option (Fin NFILE)) :
    (g.withUser (g.user.setProc p ((g.user.proc p).setOfile fd f))).Idle := by
  refine ⟨h.toRest.withUser h.closed, ?_⟩
  change (upd g.user.proc p _ g.cur).live = true
  by_cases he : g.cur = p
  · rw [he, upd_same, ← he]
    exact h.live
  · rw [upd_ne _ _ he]
    exact h.live

def FdallocPost (g : View) (f : Fin NFILE) (s : Fs) : Option (Fin NOFILE) → Fs → Prop
  | none, t => t = s
  | some fd, t => Inv (g.withUser (g.user.setProc g.cur
      ((g.user.proc g.cur).setOfile fd (some f)))) t

theorem fdalloc_spec (h : Inv g s) (hown : g.owner = g.user) (f : Fin NFILE) (E : Stop → Prop) :
    Wp (fdalloc f) s (FdallocPost g f s) E := by
  unfold fdalloc
  simp only [wp_bind, wp_myproc]
  split
  next fd _ =>
    simp only [wp_bind, wp_setOfile, wp_pure]
    rw [h.cur]
    exact (setOfile_spec h hown g.cur fd (some f)).1
  next => exact wp_pure.mpr rfl

/-! ## The calls -/

/-- What a call leaves behind. -/
def Rests (g : View) (t : Fs) : Prop := ∃ g', Inv g' t ∧ g'.Rest ∧ Next g g'

theorem Idles.rests {t : Fs} (h : Idles g t) : Rests g t := by
  obtain ⟨g', ht, hidle, hn⟩ := h
  exact ⟨g', ht, hidle.toRest, hn⟩

theorem Inv.idles (h : Inv g s) (hidle : g.Idle) : Idles g s := ⟨g, h, hidle, Next.refl g⟩

theorem sysDup_spec (h : Inv g s) (hidle : g.Idle) (fd : Int) :
    Wp (sysDup fd) s (fun _ t => Rests g t) FileStop := by
  unfold sysDup
  refine wp_bind.mpr (wp_argfd ?_)
  rintro (_ | ⟨-, f⟩)
  · exact wp_pure.mpr (h.idles hidle).rests
  refine (fdalloc_spec h hidle.owner f _).seq ?_
  rintro (_ | fd') t ht
  · rw [FdallocPost] at ht
    rw [ht]
    exact wp_pure.mpr (h.idles hidle).rests
  · refine (filedup_spec ht rfl f).seq ?_
    rintro _ u ⟨hu, hn⟩
    have hn' := (setOfile_spec h hidle.owner g.cur fd' (some f)).2
    exact wp_pure.mpr ⟨_, hu, ((hidle.setOfile g.cur fd' (some f)).dup f).toRest, hn'.trans hn⟩

theorem sysClose_spec (h : Inv g s) (hidle : g.Idle) (fd : Int) :
    Wp (sysClose fd) s (fun _ t => Rests g t) FileStop := by
  unfold sysClose
  refine wp_bind.mpr (wp_argfd ?_)
  rintro (_ | ⟨fd', f⟩)
  · exact wp_pure.mpr (h.idles hidle).rests
  simp only [wp_bind, wp_setOfile]
  rw [h.cur]
  obtain ⟨ht, hn⟩ := setOfile_spec h hidle.owner g.cur fd' none
  refine (fileclose_spec ht (hidle.setOfile g.cur fd' none) f).imp fun _ u hu => wp_pure.mpr ?_
  exact (hu.of_next hn).rests

theorem lockFile_spec (h : Inv g s) (hown : g.owner = g.user) (hlocks : g.locks = ∅) (href : (g.user.ftable f).ref ≠ 0) (hty : (g.user.ftable f).type = .inode)
    (E : Stop → Prop) : Wp (ilock (g.user.ftable f).ip) s
      (fun _ t => Inv { g with locks := {(g.user.ftable f).ip} } t) E := by
  have hk := holds_file hown href hty
  refine (ilock_spec h (.inr ⟨hk, rfl⟩) (by simp [hlocks])).mono ?_ fun e he =>
    absurd he.2 (h.cache.held _ hk).2.1
  rintro _ t ⟨ht, -⟩
  rw [hlocks, insert_empty_eq] at ht
  exact ht

/-- The file with the offset moved on. -/
def File.advance (fl : File) (r : Int) : File := { fl with off := (fl.off + r.toNat) % 2 ^ 32 }

theorem advance_spec (h : Inv g s) (hown : g.owner = g.user) (f : Fin NFILE) (r : Int) {E : Stop → Prop} :
    Wp (if 0 < r then setFile f fun fl => { fl with off := (fl.off + r.toNat) % 2 ^ 32 }
        else return ()) s
      (fun _ t => Inv (g.withUser (g.user.setFile f
        (if 0 < r then (g.user.ftable f).advance r else g.user.ftable f))) t) E := by
  refine wp_ite (fun hr => wp_setFile.mpr ?_) fun hr => wp_pure.mpr ?_
  · rw [if_pos hr]
    exact h.setFile_same hown f (fun fl => fl.advance r) (fun _ => Iff.rfl) rfl
  · rw [if_neg hr]
    have := h.setFile_same hown f id (fun _ => Iff.rfl) rfl
    rwa [show s.setFile f id = s by unfold Fs.setFile; rw [id, upd_eq_self]] at this

theorem advance_openOn (fl : File) (r : Int) (l : Fin NINODE) :
    (if 0 < r then fl.advance r else fl).OpenOn l ↔ fl.OpenOn l := by
  split <;> exact Iff.rfl

theorem View.Idle.advance (h : g.Idle) (f : Fin NFILE) (r : Int) : (g.withUser (g.user.setFile f
      (if 0 < r then (g.user.ftable f).advance r else g.user.ftable f))).Idle := by
  refine h.setFile ?_
  split <;> exact h.closed f

theorem fileread_spec (h : Inv g s) (hidle : g.Idle) (f : Fin NFILE) (n : Nat) :
    Wp (fileread f n) s (fun _ t => Idles g t) FileStop := by
  unfold fileread
  simp only [wp_bind, wp_file]
  rw [h.ftable_eq]
  refine wp_ite (fun _ => wp_pure.mpr (h.idles hidle)) fun _ => ?_
  cases hty : (g.user.ftable f).type with
  | none => exact wp_panic.mpr (.inr trivial)
  | pipe =>
    unfold nextInput
    simp only [wp_bind, wp_get, wp_modify, wp_pure]
    split <;> exact wp_pure.mpr ((h.withInput _).idles hidle)
  | inode =>
    have href : (g.user.ftable f).ref ≠ 0 := fun h0 => hidle.closed f h0 hty
    have hk := holds_file hidle.owner href hty
    dsimp only
    rw [wp_bind]
    refine (lockFile_spec h hidle.owner hidle.locks href hty _).imp fun _ t ht => ?_
    rw [wp_bind]
    refine (readi_inv ht (Finset.mem_singleton_self _) (.inr ⟨hk, rfl⟩) _ _ _).imp fun r u hu => ?_
    rw [wp_bind]
    refine (advance_spec hu hidle.owner f r.1).imp fun _ v hv => ?_
    rw [wp_bind]
    refine (iunlock_spec hv (Finset.mem_singleton_self _) _).imp ?_
    rintro _ w ⟨hw, -⟩
    refine wp_pure.mpr ⟨_, ?_, hidle.advance f r.1,
      Next.withUser hidle.owner (holds_setFile_same (advance_openOn _ _))⟩
    unfold View.withUser at hw ⊢
    dsimp only at hw
    rw [Finset.erase_singleton, ← hidle.locks] at hw
    exact hw

theorem sysRead_spec (h : Inv g s) (hidle : g.Idle) (fd : Int) (n : Option Nat) :
    Wp (sysRead fd n) s (fun _ t => Rests g t) FileStop := by
  unfold sysRead
  refine wp_bind.mpr (wp_argfd ?_)
  rintro (_ | ⟨-, f⟩)
  · exact wp_pure.mpr (h.idles hidle).rests
  cases n with
  | none => exact wp_pure.mpr (h.idles hidle).rests
  | some n =>
    exact (fileread_spec h hidle f n).seq (fun _ t ht => wp_pure.mpr ht.rests)

theorem sysFstat_spec (h : Inv g s) (hidle : g.Idle) (fd : Int) :
    Wp (sysFstat fd) s (fun _ t => Rests g t) FileStop := by
  unfold sysFstat
  refine wp_bind.mpr (wp_argfd ?_)
  rintro (_ | ⟨-, f⟩)
  · exact wp_pure.mpr (h.idles hidle).rests
  unfold filestat
  simp only [wp_bind, wp_file]
  rw [h.ftable_eq]
  cases hty : (g.user.ftable f).type with
  | none => exact wp_pure.mpr (wp_pure.mpr (h.idles hidle).rests)
  | pipe => exact wp_pure.mpr (wp_pure.mpr (h.idles hidle).rests)
  | inode =>
    have href : (g.user.ftable f).ref ≠ 0 := fun h0 => hidle.closed f h0 hty
    dsimp only
    rw [wp_bind]
    refine (lockFile_spec h hidle.owner hidle.locks href hty _).imp fun _ t ht => ?_
    unfold stati
    simp only [wp_bind, wp_inode, wp_pure]
    refine (iunlock_spec ht (Finset.mem_singleton_self _) _).imp ?_
    rintro _ w ⟨hw, -⟩
    dsimp only at hw
    rw [Finset.erase_singleton, ← hidle.locks] at hw
    exact (hw.idles hidle).rests

/-! ## Writing -/

/-- The node may have new content, unless it is a directory. -/
structure Node.Kept (n n' : Node) : Prop where
  type : n'.type = n.type
  nlink : n'.nlink = n.nlink
  dir : n.type = T_DIR → n' = n

theorem Node.Kept.refl (n : Node) : n.Kept n := ⟨rfl, rfl, fun _ => rfl⟩

theorem Node.Kept.trans {n₁ n₂ n₃ : Node} (h : n₁.Kept n₂) (h' : n₂.Kept n₃) : n₁.Kept n₃ :=
  ⟨h'.type.trans h.type, h'.nlink.trans h.nlink, fun hd =>
    (h'.dir (h.type.trans hd)).trans (h.dir hd)⟩

/-- A step that writes to files. -/
structure Rewrites (g g' : View) : Prop where
  sb : g'.sb = g.sb
  kept : ∀ j, (g.node j).Kept (g'.node j)
  uses : ∀ j, g.Uses j → g'.Uses j

theorem Rewrites.trans {g₁ g₂ g₃ : View} (h : Rewrites g₁ g₂) (h' : Rewrites g₂ g₃) : Rewrites g₁ g₃ :=
  ⟨h'.sb.trans h.sb, fun j => (h.kept j).trans (h'.kept j), fun j hj => h'.uses j (h.uses j hj)⟩

theorem Rewrites.refl (g : View) : Rewrites g g := ⟨rfl, fun _ => .refl _, fun _ => id⟩

theorem writei_kept (h : Inv g s) (hop : g.op = true) (hk : k ∈ g.locks) (hat : g.At k i)
    (hdir : (g.node i).type ≠ T_DIR) (src : List UInt8) (off : Nat) :
    Wp (writei k src off) s (fun _ t => ∃ n, Inv { g with node := upd g.node i n } t ∧
      (g.node i).Kept n) Stop.scarce := by
  have hself : ∀ {t}, Inv g t → ∃ n, Inv { g with node := upd g.node i n } t ∧ (g.node i).Kept n :=
    fun ht => ⟨g.node i, by rw [upd_eq_self]; exact ht, .refl _⟩
  by_cases hdev : (g.node i).type = T_DEV
  · have hd : (s.icache k).din.type = T_DEV := by rw [h.din_type hk, h.inum_eq hat, hdev]
    unfold writei
    simp only [wp_bind, wp_inode]
    rw [if_pos hd]
    refine wp_ite (fun _ => wp_pure.mpr (hself h)) fun _ => ?_
    exact (consolewrite_spec h hk hat _ _).imp fun _ t ht => hself ht.2
  · refine (writei_spec h hop hk hat hdev src off fun hc => absurd hc hdir).imp ?_
    rintro _ t (⟨-, -, rfl⟩ | ⟨-, -, ht, -⟩)
    · exact hself h
    · exact ⟨_, ht, rfl, rfl, fun hc => absurd hc hdir⟩

/-- The tables hold an open file that can be written. -/
structure User.OpenRW (u : User) (f : Fin NFILE) : Prop where
  ref : (u.ftable f).ref ≠ 0
  type : (u.ftable f).type = .inode
  writable : (u.ftable f).writable = true

theorem User.OpenRW.advance (h : u.OpenRW f) (r : Int) :
    (u.setFile f (if 0 < r then (u.ftable f).advance r else u.ftable f)).OpenRW f := by
  obtain ⟨h1, h2, h3⟩ := h
  constructor
  all_goals
    unfold User.setFile
    dsimp only
    rw [upd_same]
    split
    · assumption
    · assumption

theorem filewriteFrom_spec (f : Fin NFILE) : ∀ (fuel : Nat) (src : List UInt8) (g : View) (s : Fs),
    Inv g s → g.Idle → g.user.OpenRW f → Wp (filewriteFrom f fuel src) s
      (fun _ t => ∃ g', Inv g' t ∧ g'.Idle ∧ Rewrites g g') FileStop
  | 0, _, g, _, h, hidle, _ => wp_pure.mpr ⟨g, h, hidle, .refl g⟩
  | fuel + 1, src, g, s, h, hidle, hf => by
    have hk := holds_file hidle.owner hf.ref hf.type
    unfold filewriteFrom
    refine wp_ite (fun _ => wp_pure.mpr ⟨g, h, hidle, .refl g⟩) fun _ => ?_
    refine (beginOp_spec h hidle.op _).seq ?_
    rintro _ t ⟨ht, -⟩
    simp only [wp_bind, wp_file]
    rw [ht.ftable_eq]
    refine (lockFile_spec ht hidle.owner hidle.locks hf.ref hf.type _).imp fun _ u hu => ?_
    have hdir : (g.node (g.inum (g.user.ftable f).ip)).type ≠ T_DIR := by
      have := h.cache.writers f
      rw [hidle.owner] at this
      exact this (Nat.pos_of_ne_zero hf.ref) hf.type hf.writable
    refine (writei_kept hu rfl (Finset.mem_singleton_self _) (.inr ⟨hk, rfl⟩) hdir _ _).mono ?_
      fun _ => .inl
    rintro r v ⟨n, hv, hn⟩
    refine (advance_spec hv hidle.owner f r).imp fun _ w hw => ?_
    refine (iunlock_spec hw (Finset.mem_singleton_self _) _).imp ?_
    rintro _ x ⟨hx, -⟩
    refine (endOp_spec hx rfl _).imp ?_
    rintro _ y ⟨hy, -⟩
    -- The file system after this piece.
    obtain ⟨g', hg'⟩ : ∃ g', g' =
        View.withUser { g with node := upd g.node (g.inum (g.user.ftable f).ip) n }
          (g.user.setFile f
            (if 0 < r then (g.user.ftable f).advance r else g.user.ftable f)) := ⟨_, rfl⟩
    have hinv : Inv g' y := by
      unfold View.withUser at hy
      dsimp only at hy
      rw [Finset.erase_singleton, ← hidle.locks, ← hidle.op] at hy
      rw [hg']
      exact hy
    have hidle' : g'.Idle := by
      have := hidle.advance f r
      rw [hg']
      exact ⟨⟨this.owner, this.closed, this.refs, this.locks, this.op⟩, this.live⟩
    have hrw : Rewrites g g' := by
      rw [hg']
      refine ⟨rfl, fun j => ?_, fun j hj => ?_⟩
      · change (g.node j).Kept (upd g.node _ n j)
        by_cases he : j = g.inum (g.user.ftable f).ip
        · rw [he, upd_same]
          exact hn
        · rw [upd_ne _ _ he]
          exact .refl _
      · obtain ⟨l, hl⟩ := hj
        refine ⟨l, hl.imp id fun hh => ⟨?_, hh.2⟩⟩
        have hsame := holds_setFile_same (u := g.user) (f := f) (advance_openOn _ r) l
        refine hsame.symm ▸ ?_
        rw [← hidle.owner]
        exact hh.1
    have hf' : g'.user.OpenRW f := by
      rw [hg']
      exact hf.advance r
    refine wp_ite (fun _ => wp_pure.mpr ⟨g', hinv, hidle', hrw⟩) fun _ =>
      wp_ite (fun _ => wp_panic.mpr (.inr trivial)) fun _ => ?_
    refine (filewriteFrom_spec f fuel _ g' y hinv hidle' hf').imp ?_
    rintro _ z ⟨g'', h1, h2, h3⟩
    exact ⟨g'', h1, h2, hrw.trans h3⟩

theorem sysWrite_spec (h : Inv g s) (hidle : g.Idle) (fd : Int) (src : Option (List UInt8)) :
    Wp (sysWrite fd src) s (fun _ t => ∃ g', Inv g' t ∧ g'.Rest ∧ Rewrites g g') FileStop := by
  have hself : ∀ {t}, Inv g t → ∃ g', Inv g' t ∧ g'.Rest ∧ Rewrites g g' :=
    fun ht => ⟨g, ht, hidle.toRest, .refl g⟩
  unfold sysWrite
  refine wp_bind.mpr (wp_argfd ?_)
  rintro (_ | ⟨-, f⟩)
  · exact wp_pure.mpr (hself h)
  cases src with
  | none => exact wp_pure.mpr (hself h)
  | some src =>
    unfold filewrite
    simp only [wp_bind, wp_file]
    rw [h.ftable_eq]
    refine wp_ite (fun _ => wp_pure.mpr (hself h)) fun hw => ?_
    cases hty : (g.user.ftable f).type with
    | none => exact wp_panic.mpr (.inr trivial)
    | pipe =>
      unfold nextInput
      simp only [wp_bind, wp_get, wp_modify, wp_pure]
      split <;> exact wp_pure.mpr (hself (h.withInput _))
    | inode =>
      have href : (g.user.ftable f).ref ≠ 0 := fun h0 => hidle.closed f h0 hty
      dsimp only
      rw [wp_bind]
      refine (filewriteFrom_spec f _ _ g s h hidle ⟨href, hty, by simpa using hw⟩).imp ?_
      rintro b t ⟨g', ht, hidle', hrw⟩
      split <;> exact wp_pure.mpr ⟨g', ht, hidle'.toRest, hrw⟩

/-! ## Processes -/

theorem forkFiles_spec {child : Fin NPROC} : ∀ (fds : List (Fin NOFILE)) (g : View) (s : Fs),
    Inv g s → g.Idle → (g.user.proc child).live = false →
    Wp (forkFiles child fds) s (fun _ t => ∃ g', Inv g' t ∧ g'.Idle ∧ Next g g' ∧
      (g'.user.proc child).live = false) FileStop
  | [], g, _, h, hidle, hc => wp_pure.mpr ⟨g, h, hidle, .refl g, hc⟩
  | fd :: fds, g, s, h, hidle, hc => by
    unfold forkFiles
    simp only [wp_bind, wp_myproc]
    split
    next => exact forkFiles_spec fds g s h hidle hc
    next f _ =>
      rw [wp_bind]
      refine (filedup_spec h hidle.owner f).imp ?_
      rintro _ t ⟨ht, hn⟩
      have hidle₁ := hidle.dup f
      simp only [wp_bind, wp_modify]
      obtain ⟨hu, hn'⟩ := setOfile_spec ht rfl child fd (some f)
      refine (forkFiles_spec fds _ _ hu (hidle₁.setOfile child fd (some f)) ?_).imp ?_
      · change (upd g.user.proc child _ child).live = false
        rw [upd_same]
        exact hc
      · rintro _ u ⟨g', h1, h2, h3, h4⟩
        exact ⟨g', h1, h2, (hn.trans hn').trans h3, h4⟩

theorem fork_spec (h : Inv g s) (hidle : g.Idle) {child : Fin NPROC}
    (hc : (g.user.proc child).live = false) : Wp (fork child) s (fun _ t => Rests g t) FileStop := by
  unfold fork
  refine (forkFiles_spec _ g s h hidle hc).seq ?_
  rintro _ t ⟨g₁, ht, hidle₁, hn, hc₁⟩
  have hrun : g₁.Running := ⟨hidle₁.owner, hidle₁.live, hidle₁.closed⟩
  simp only [wp_bind, wp_myproc]
  have hcwd : (t.proc t.cur).cwd = (g₁.user.proc g₁.cur).cwd := by rw [ht.proc_eq, ht.cur]
  rw [hcwd]
  obtain ⟨c, hcdef⟩ : ∃ c, c = (g₁.user.proc g₁.cur).cwd := ⟨_, rfl⟩
  have hat := hrun.at_cwd
  have hpos := hrun.holds_cwd
  rw [← hcdef] at hat hpos ⊢
  refine (idup_spec ht hat _).imp ?_
  rintro k u ⟨hk, hu⟩
  simp only [wp_modify, wp_pure]
  rw [hk, hu.setProc_eq]
  dsimp only
  obtain ⟨pr, hpr⟩ : ∃ pr, pr = { g₁.user.proc child with live := true, cwd := c } := ⟨_, rfl⟩
  rw [← hpr]
  have hholds : ∀ l, (g₁.user.setProc child pr).holds l =
      g₁.user.holds l + if l = c then 1 else 0 := by
    intro l
    have := g₁.user.holds_setProc child pr l
    have hold : ¬ (g₁.user.proc child).CwdIs l := fun hl => by
      rw [hl.1] at hc₁
      cases hc₁
    have hnew : pr.CwdIs l ↔ l = c := by
      rw [hpr]
      exact ⟨fun hl => hl.2.symm, fun hl => ⟨rfl, hl.symm⟩⟩
    rw [if_neg hold] at this
    simp only [hnew] at this
    omega
  obtain ⟨-, hty, hv⟩ := hu.cache.held c hpos
  have hwriters := hu.cache.writers
  dsimp only at hwriters
  rw [hidle₁.owner] at hwriters
  have hend := hu.give hidle₁.owner (List.Perm.refl _) hholds hty hv
    (by rw [upd_eq_self]; exact hwriters)
  dsimp only at hend
  rw [upd_eq_self] at hend
  refine ⟨_, hend, ⟨rfl, hidle₁.closed, hidle₁.refs, hidle₁.locks, hidle₁.op⟩, hn.trans
    ⟨rfl, rfl, Quiet.of_uses rfl rfl fun j hj => ?_⟩⟩
  obtain ⟨l, hl⟩ := hj
  refine ⟨l, hl.imp id fun hh => ⟨?_, hh.2⟩⟩
  change 0 < (g₁.user.setProc child pr).holds l
  rw [hholds, ← hidle₁.owner]
  exact Nat.add_pos_left hh.1 _

theorem exitFiles_spec : ∀ (fds : List (Fin NOFILE)) (g : View) (s : Fs), Inv g s → g.Idle →
    Wp (exitFiles fds) s (fun _ t => Idles g t) FileStop
  | [], _, _, h, hidle => wp_pure.mpr (h.idles hidle)
  | fd :: fds, g, s, h, hidle => by
    unfold exitFiles
    simp only [wp_bind, wp_myproc]
    split
    next => exact exitFiles_spec fds g s h hidle
    next f _ =>
      rw [wp_bind]
      refine (fileclose_spec h hidle f).imp ?_
      rintro _ t ⟨g₁, ht, hidle₁, hn⟩
      simp only [wp_bind, wp_setOfile]
      rw [ht.cur]
      obtain ⟨hu, hn'⟩ := setOfile_spec ht hidle₁.owner g₁.cur fd none
      exact (exitFiles_spec fds _ _ hu (hidle₁.setOfile g₁.cur fd none)).imp fun _ v hv =>
        hv.of_next (hn.trans hn')

theorem Quiet.release (hown : g.owner = g.user)
    (hholds : ∀ l, u.holds l + (if l = k then 1 else 0) = g.user.holds l) (op : Bool) : Quiet g { g with
      user := u
      owner := u
      node := View.drop { g with user := u, owner := u } (g.inum k) g.refs
      op := op } :=
  (Quiet.take hown hholds).trans
    (Quiet.put (k := k) (i := g.inum k) (r := g.refs) (List.Perm.refl _))

theorem exit_spec (h : Inv g s) (hidle : g.Idle) : Wp exit s (fun _ t => Rests g t) FileStop := by
  unfold exit
  refine (exitFiles_spec _ g s h hidle).seq ?_
  rintro _ t ⟨g₁, ht, hidle₁, hn⟩
  have hrun : g₁.Running := ⟨hidle₁.owner, hidle₁.live, hidle₁.closed⟩
  refine (beginOp_spec ht hidle₁.op _).seq ?_
  rintro _ u ⟨hu, -⟩
  simp only [wp_bind, wp_myproc]
  rw [hu.proc_eq, hu.cur]
  obtain ⟨c, hc⟩ : ∃ c, c = (g₁.user.proc g₁.cur).cwd := ⟨_, rfl⟩
  obtain ⟨o, ho⟩ : ∃ o, o = g₁.user.setProc g₁.cur { g₁.user.proc g₁.cur with live := false } :=
    ⟨_, rfl⟩
  have hpos := hrun.holds_cwd
  dsimp only
  rw [← hc] at hpos ⊢
  have hholds : ∀ l, o.holds l + (if l = c then 1 else 0) = g₁.user.holds l := by
    intro l
    have := g₁.user.holds_setProc g₁.cur { g₁.user.proc g₁.cur with live := false } l
    rw [← ho] at this
    have hold : (g₁.user.proc g₁.cur).CwdIs l ↔ l = c := by
      rw [hc]
      exact ⟨fun hl => hl.2.symm, fun hl => ⟨hidle₁.live, hl.symm⟩⟩
    have hnew : ¬ Proc.CwdIs { g₁.user.proc g₁.cur with live := false } l :=
      fun hl => Bool.noConfusion hl.1
    rw [if_neg hnew] at this
    simp only [hold] at this
    omega
  have hwriters := hu.cache.writers
  dsimp only at hwriters
  rw [hidle₁.owner] at hwriters
  have hw : o.Writers g₁.inum g₁.node := by
    rw [ho]
    exact hwriters
  have htake := hu.take hidle₁.owner (u := g₁.user) hholds hw
  rw [hidle₁.refs] at htake
  have hstate : { u with ftable := g₁.user.ftable, proc := g₁.user.proc } = u := by
    rw [← hu.ftable_eq, ← hu.proc_eq]
  rw [hstate] at htake
  refine (iput_read htake rfl (List.Perm.refl _) (by simp [hidle₁.locks])
    (hu.cache.held c hpos).2.2).mono ?_ fun _ => .inl
  intro _ v hv
  refine (endOp_spec hv rfl _).imp ?_
  rintro _ w ⟨hw', -⟩
  simp only [wp_modify, wp_pure]
  rw [hw'.cur]
  dsimp only
  rw [hw'.setProc_eq]
  dsimp only
  rw [← ho]
  have hend := hw'.setUser o
  dsimp only at hend
  have hclosed : o.Closed := by
    rw [ho]
    exact hidle₁.closed
  refine ⟨_, hend, ?_, hn.trans ?_⟩
  · exact ⟨rfl, hclosed, rfl, hidle₁.locks, rfl⟩
  · have := Quiet.release hidle₁.owner hholds false
    rw [hidle₁.refs] at this
    exact ⟨rfl, rfl, this⟩

end Xv6
