import Xv6.Fs.FileSpec

/-!
# What the calls on paths do

`chdir`, `exec`, `open`, `mkdir`, `mknod`, `link` and `unlink`. Each of them ends
with the code holding nothing and its transaction closed, and `CallPost` is what
it did to the nodes. The statements about the nodes hold when every inode
without links is in use and no link count is negative: otherwise a lookup could
free an inode on its way.
-/

namespace Xv6

open Hoare Table Scan

variable {g : View} {s : Fs} {k : Fin NINODE} {i : Nat}

/-! ## The end of a call -/

/-- No link count is negative. -/
def View.NonNeg (g : View) : Prop := ∀ j < g.sb.ninodes, 0 ≤ (g.node j).nlink

/-- What a call leaves behind. -/
def CallPost (g : View) (P : View → Prop) (t : Fs) : Prop :=
  ∃ g', Inv g' t ∧ g'.Rest ∧ g'.sb = g.sb ∧ Keeps g.node g'.node ∧
    (g.Settled → g.NonNeg → P g' ∧ g'.Settled)

variable {t : Fs}

theorem CallPost.imp {P Q : View → Prop} (h : CallPost g P t) (hpq : ∀ g', P g' → Q g') :
    CallPost g Q t := by
  obtain ⟨g', h1, h2, h3, h4, h5⟩ := h
  exact ⟨g', h1, h2, h3, h4, fun hs hn => ⟨hpq _ (h5 hs hn).1, (h5 hs hn).2⟩⟩

/-- What a call that returned `r` did: nothing if it failed. -/
def Outcome (g : View) (P : View → Prop) (r : Int) (g' : View) : Prop :=
  r = -1 ∧ g' = g ∨ r ≠ -1 ∧ P g'

theorem Outcome.failed {P : View → Prop} : Outcome g P (-1) g := .inl ⟨rfl, rfl⟩

variable {g' : View}

theorem Outcome.done {P : View → Prop} {r : Int} (hr : r ≠ -1) (h : P g') : Outcome g P r g' := .inr ⟨hr, h⟩

theorem Outcome.frees_or {P : View → Prop} {r : Int} (h : Outcome g P r g') :
    Frees g.node g'.node ∨ P g' := by
  rcases h with ⟨-, rfl⟩ | ⟨-, h⟩
  · exact .inl (Frees.refl _)
  · exact .inr h

theorem Rests.callPost (h : Rests g t) : CallPost g (fun g' => Frees g.node g'.node) t := by
  obtain ⟨g', h1, h2, h3⟩ := h
  exact ⟨g', h1, h2, h3.sb, h3.quiet.1.keeps, fun hs _ => ⟨h3.quiet.1, h3.quiet.2 hs⟩⟩

theorem View.Settled.more (h : g.Settled) (r : List (Fin NINODE × Nat)) (hrefs : g.refs = []) :
    View.Settled { g with refs := r } := fun j hj hty h0 =>
  View.Uses.mono (r := g.refs) (by simp [hrefs]) (h j hj hty h0)

section

variable {node : Nat → Node} {P : View → Prop} {Q : Fs → Prop} {E : Stop → Prop}

theorem finish_spec (hidle : g.Idle) (hu : Inv { g with node := node, op := true } s)
    (hkeeps : Keeps g.node node) (hP : g.Settled → g.NonNeg →
      View.Settled { g with node := node } ∧ P { g with node := node })
    (hQ : ∀ t, CallPost g P t → Q t) :
    Wp endOp s (fun _ t => Q t) E := by
  refine (endOp_spec hu rfl _).imp ?_
  rintro _ t ⟨ht, -⟩
  dsimp only at ht
  rw [← hidle.op] at ht
  exact hQ t ⟨{ g with node := node }, ht,
    ⟨hidle.owner, hidle.closed, hidle.refs, hidle.locks, hidle.op⟩, rfl, hkeeps,
    fun hs hn => ⟨(hP hs hn).2, (hP hs hn).1⟩⟩

theorem finishRef_spec (k : Fin NINODE) (node : Nat → Node) (hidle : g.Idle)
    (hu : Inv { g with node := View.drop { g with node := node } i [], op := true } s)
    (hkeeps : Keeps g.node node) (hP : g.Settled → g.NonNeg → View.Settled { g with node := node, refs := [(k, i)] } ∧
      ∀ node', Frees node node' → P { g with node := node' })
    (hQ : ∀ t, CallPost g P t → Q t) :
    Wp endOp s (fun _ t => Q t) E := by
  refine finish_spec hidle hu
    (hkeeps.trans (View.frees_drop { g with node := node } i []).keeps) (fun hs hn => ?_) hQ
  obtain ⟨h1, h2⟩ := hP hs hn
  refine ⟨?_, h2 _ (View.frees_drop { g with node := node } i [])⟩
  have := h1.put (k := k) (i := i) (r := []) (List.Perm.refl _)
  have hr : g = { g with refs := [] } := by rw [← hidle.refs]
  rw [hr]
  exact this

theorem finishPut_spec (hidle : g.Idle)
    (hu : Inv { g with node := node, refs := [(k, i)], locks := {k}, op := true } s)
    (hkeeps : Keeps g.node node) (hP : g.Settled → g.NonNeg → View.Settled { g with node := node, refs := [(k, i)] } ∧
      ∀ node', Frees node node' → P { g with node := node' })
    (hQ : ∀ t, CallPost g P t → Q t) (hE : ∀ e, e.scarce → E e) :
    Wp (iunlockput k) s (fun _ t => Wp endOp t (fun _ t => Q t) E) E := by
  refine (iunlockput_spec hu rfl (List.Perm.refl _) (Finset.mem_singleton_self _)).mono ?_ hE
  intro _ t ht
  dsimp only at ht
  rw [Finset.erase_singleton, ← hidle.locks] at ht
  refine finishRef_spec k node hidle ?_ hkeeps hP hQ
  have hr : g = { g with refs := [] } := by rw [← hidle.refs]
  rw [hr]
  exact ht

theorem finishKept_spec (hidle : g.Idle)
    (hu : Inv { g with node := node, refs := [(k, i)], locks := {k}, op := true } s)
    (hkeeps : Keeps g.node node) (hkeep : g.Settled → g.NonNeg → (node i).nlink = 0 → g.Uses i)
    (hP : g.Settled → g.NonNeg →
      View.Settled { g with node := node } ∧ P { g with node := node })
    (hQ : ∀ t, CallPost g P t → Q t) (hE : ∀ e, e.scarce → E e) :
    Wp (iunlockput k) s (fun _ t => Wp endOp t (fun _ t => Q t) E) E := by
  have hk := Finset.mem_singleton_self k
  refine (iunlockput_spec hu rfl (List.Perm.refl _) hk).mono ?_ hE
  intro _ t ht
  dsimp only at ht
  rw [Finset.erase_singleton, ← hidle.locks, ← hidle.refs] at ht
  refine finish_spec hidle ht (hkeeps.trans (View.frees_drop { g with
    node := node, refs := (k, i) :: g.refs, locks := {k}, op := true } i g.refs).keeps)
    (fun hs hn => ?_) hQ
  have hdrop : View.drop { g with
      node := node, refs := (k, i) :: g.refs, locks := {k}, op := true } i g.refs = node :=
    View.drop_keep (hkeep hs hn)
  rw [hdrop]
  exact hP hs hn

theorem finishSame_spec (hidle : g.Idle)
    (hu : Inv { g with node := node, refs := [(k, i)], locks := {k}, op := true } s)
    (hkeeps : Keeps g.node node) (hnode : g.Settled → node = g.node) (hQ : ∀ t, CallPost g (· = g) t → Q t)
    (hE : ∀ e, e.scarce → E e) :
    Wp (iunlockput k) s (fun _ t => Wp endOp t (fun _ t => Q t) E) E := by
  have hat : View.At { g with node := node, refs := [(k, i)], locks := {k}, op := true } k i :=
    .inl List.mem_cons_self
  have hty : (node i).type ≠ 0 := hu.inum_eq hat ▸ hu.locked_type (Finset.mem_singleton_self _)
  refine finishKept_spec hidle hu hkeeps (fun hs _ h0 => ?_) (fun hs _ => ?_) hQ hE
  · obtain rfl := hnode hs
    exact hs i (hu.at_lt hat).2 hty h0
  · obtain rfl := hnode hs
    exact ⟨hs, rfl⟩

end

/-! ## Looking up -/

theorem resolve_type {node : Nat → Node} {parent : Bool}
    (hnd : ∀ i, (node i).type = T_DIR → ∀ e < (node i).size / DESIZE,
      ((node i).ent e).inum ≠ 0 → (node ((node i).ent e).inum).type ≠ 0) :
    ∀ (names : List (List UInt8)) (i : Nat) (name : List UInt8) {j : Nat} {x : List UInt8},
      (node i).type ≠ 0 → resolve node parent i names name = some (j, x) → (node j).type ≠ 0
  | [], i, name, j, x, hi, h => by
    rw [resolve] at h
    split at h
    · cases h
    · rw [Option.some.injEq, Prod.mk.injEq] at h
      rw [← h.1]
      exact hi
  | y :: ys, i, name, j, x, hi, h => by
    rw [resolve] at h
    split at h
    next hdir =>
      split at h
      · rw [Option.some.injEq, Prod.mk.injEq] at h
        rw [← h.1]
        exact hi
      · split at h
        · cases h
        next e he =>
          exact resolve_type hnd ys _ _ (hnd i hdir e (Node.find_some he).1 (Node.find_some he).2.1) h
    next => cases h

theorem resolve_dir {node : Nat → Node} : ∀ (names : List (List UInt8)) (i : Nat)
    (name : List UInt8) {d : Nat} {x : List UInt8},
    resolve node true i names name = some (d, x) → (node d).type = T_DIR
  | [], i, name, d, x, h => by
    rw [resolve, if_pos rfl] at h
    cases h
  | y :: ys, i, name, d, x, h => by
    rw [resolve] at h
    split at h
    next hdir =>
      split at h
      · cases h
        exact hdir
      · split at h
        · cases h
        · exact resolve_dir ys _ _ h
    next => cases h

theorem Inv.lt_of_type (h : Inv g s) (hty : (g.node i).type ≠ 0) : i < g.sb.ninodes := by
  by_contra hc
  rw [h.disk.node_out i (Nat.le_of_not_lt hc)] at hty
  exact hty rfl

variable {path : List UInt8}

theorem Inv.lookup_type (h : Inv g s) (hrun : g.Running) (hwf : g.Wf)
    (hl : g.lookup path = some i) : (g.node i).type ≠ 0 := by
  unfold View.lookup at hl
  rw [Option.map_eq_some_iff] at hl
  obtain ⟨⟨j, x⟩, hj, rfl⟩ := hl
  refine resolve_type (fun j hdir => hwf.noDangling j ?_ hdir) _ _ _ (h.start_type hrun hwf path) hj
  exact h.lt_of_type (by rw [hdir]; decide)

theorem lockFound_spec {g₀ : View} (h : Inv g₀ s) (hin : g₀.InCall)
    {node : Nat → Node} (ht : Inv { g₀ with node := node, refs := (k, i) :: g₀.refs } t)
    (hset : g₀.Settled → node = g₀.node ∧ g₀.lookup path = some i) :
    Wp (ilock k) t (fun _ u =>
      Inv { g₀ with node := node, refs := [(k, i)], locks := {k} } u ∧ (node i).type ≠ 0)
      (CallStop g₀) := by
  rw [hin.refs] at ht
  refine (ilock_spec ht (.inl List.mem_cons_self) (by simp [hin.locks])).mono ?_ ?_
  · rintro _ u ⟨hu, hty⟩
    dsimp only at hu
    rw [hin.locks, insert_empty_eq] at hu
    exact ⟨hu, hty⟩
  · rintro e ⟨rfl, h0⟩
    refine .inr (.inr ⟨trivial, fun hwf => ?_⟩)
    obtain ⟨rfl, hl⟩ := hset hwf.settled
    exact h.lookup_type hin.toRunning hwf hl h0

/-! ## `chdir` -/

theorem View.Idle.running (h : g.Idle) : g.Running := ⟨h.owner, h.live, h.closed⟩

theorem Inv.held_inum (h : Inv g s) (hat : g.At k i) (hk : 0 < g.owner.holds k) : g.inum k = i :=
  (h.cache.held k hk).1.symm.trans (h.inum_eq hat)

theorem Inv.writers_upd (h : Inv g s) (hat : g.At k i) : g.owner.Writers (upd g.inum k i) g.node := by
  intro f h1 h2 h3
  have := h.cache.writers f h1 h2 h3
  by_cases he : (g.owner.ftable f).ip = k
  · have hk : 0 < g.owner.holds k :=
      Nat.add_pos_left (Finset.card_pos.mpr ⟨f, Finset.mem_filter.mpr
        ⟨Finset.mem_univ f, h1, h2, he⟩⟩) _
    rw [he, upd_same, ← h.held_inum hat hk, ← he]
    exact this
  · rw [upd_ne _ _ he]
    exact this

/-- The tables after the running process went to the entry `k`. -/
def View.moved (g : View) (k : Fin NINODE) : User :=
  g.user.setProc g.cur { g.user.proc g.cur with cwd := k }

theorem View.Running.holds_moved (h : g.Running) (k l : Fin NINODE) :
    (g.moved k).holds l + (if l = (g.user.proc g.cur).cwd then 1 else 0) =
      g.user.holds l + if l = k then 1 else 0 := by
  have := g.user.holds_setProc g.cur { g.user.proc g.cur with cwd := k } l
  have hold : (g.user.proc g.cur).CwdIs l ↔ l = (g.user.proc g.cur).cwd :=
    ⟨fun hl => hl.2.symm, fun hl => ⟨h.live, hl.symm⟩⟩
  have hnew : Proc.CwdIs { g.user.proc g.cur with cwd := k } l ↔ l = k :=
    ⟨fun hl => hl.2.symm, fun hl => ⟨h.live, hl.symm⟩⟩
  simp only [hold, hnew] at this
  exact this

theorem Inv.goTo (h : Inv g s) (hrun : g.Running) (hrefs : g.refs = [(k, i)])
    (hty : (g.node i).type ≠ 0) (hv : (s.icache k).valid = true) : Inv { g with
      owner := g.moved k
      inum := upd g.inum k i
      refs := [((g.user.proc g.cur).cwd, g.inum (g.user.proc g.cur).cwd)] } s := by
  have hat : g.At k i := .inl (by rw [hrefs]; exact List.mem_cons_self)
  have hholds := hrun.holds_moved k
  have hstate : { s with ftable := g.user.ftable, proc := g.user.proc } = s := by
    rw [← h.ftable_eq, ← h.proc_eq]
  have hcount : ∀ (l : Fin NINODE) (m : Fin NINODE) (j : Nat),
      countRefs [(m, j)] l = if l = m then 1 else 0 := by
    intro l m j
    rw [countRefs_cons]
    exact Nat.zero_add _
  have := h.move (u := g.user) (o := g.moved k) (m := upd g.inum k i)
    (r := [((g.user.proc g.cur).cwd, g.inum (g.user.proc g.cur).cwd)])
    (fun l => by rw [hrefs, hcount, hcount, hrun.owner, hholds]) (fun j hj => ?_) (fun l hl => ?_) ?_
  · rwa [hstate] at this
  · rw [List.mem_singleton.mp hj]
    exact (h.cache.held _ hrun.holds_cwd).1
  · by_cases he : l = k
    · rw [he, upd_same]
      exact ⟨h.inum_eq hat, hty, fun _ => hv⟩
    · rw [upd_ne _ _ he]
      refine h.cache.held l ?_
      have := hholds l
      rw [if_neg he] at this
      rw [hrun.owner]
      omega
  · have := h.writers_upd hat
    rw [hrun.owner] at this
    exact this

theorem Quiet.goTo (h : Inv g s) (hrun : g.Running) (hrefs : g.refs = [(k, i)]) : Quiet g { g with
      owner := g.moved k
      inum := upd g.inum k i
      refs := [((g.user.proc g.cur).cwd, g.inum (g.user.proc g.cur).cwd)] } := by
  have hat : g.At k i := .inl (by rw [hrefs]; exact List.mem_cons_self)
  refine Quiet.of_uses rfl rfl fun j hj => ?_
  obtain ⟨l, hl⟩ := hj
  have hholds := hrun.holds_moved k l
  rcases hl with hl | ⟨hl, rfl⟩
  · rw [hrefs, List.mem_singleton, Prod.mk.injEq] at hl
    obtain ⟨rfl, rfl⟩ := hl
    by_cases he : l = (g.user.proc g.cur).cwd
    · refine ⟨l, .inl ?_⟩
      have := h.held_inum hat (he ▸ hrun.holds_cwd)
      rw [← he, this]
      exact List.mem_cons_self
    · refine ⟨l, .inr ⟨?_, upd_same _ _ _⟩⟩
      rw [if_neg he, if_pos rfl] at hholds
      change 0 < (g.moved l).holds l
      omega
  · by_cases he : l = (g.user.proc g.cur).cwd
    · exact ⟨l, .inl (by rw [he]; exact List.mem_cons_self)⟩
    · refine ⟨l, .inr ⟨?_, ?_⟩⟩
      · rw [if_neg he] at hholds
        rw [hrun.owner] at hl
        change 0 < (g.moved k).holds l
        omega
      · change upd g.inum k i l = g.inum l
        by_cases hk : l = k
        · subst hk
          rw [upd_same, h.held_inum hat hl]
        · exact upd_ne _ _ hk

theorem sysChdir_spec (h : Inv g s) (hidle : g.Idle) (path : Option (List UInt8)) : Wp (sysChdir path) s
      (fun r t => CallPost g (Outcome g (fun g' => Frees g.node g'.node) r) t)
      (CallStop { g with op := true }) := by
  unfold sysChdir
  refine (beginOp_spec h hidle.op _).seq ?_
  rintro _ t ⟨ht, -⟩
  have hin := hidle.inCall
  -- Nothing was found.
  have hfail : ∀ {node u}, Inv { g with node := node, op := true } u → Frees g.node node →
      (g.Settled → node = g.node) →
      Wp (do endOp; return (-1 : Int)) u
        (fun r t => CallPost g (Outcome g (fun g' => Frees g.node g'.node) r) t)
        (CallStop { g with op := true }) := by
    intro node u hu hfr hnode
    simp only [wp_bind, wp_pure]
    refine finish_spec hidle hu hfr.keeps (fun hs _ => ?_) fun _ => id
    obtain rfl := hnode hs
    exact ⟨hs, .failed⟩
  rw [wp_bind]
  cases path with
  | none => exact wp_pure.mpr (hfail ht (Frees.refl _) fun _ => rfl)
  | some path =>
    refine (namei_spec ht hin.toRunning rfl hidle.locks path).mono ?_
      fun e he => he.callStop ht hin.toRunning
    rintro (_ | k) u
    · rintro ⟨node, hu, hfr, hset⟩
      exact hfail hu hfr fun hs => (hset hs).1
    rintro ⟨node, i, hu, hfr, hset⟩
    dsimp only at hu ⊢
    rw [wp_bind]
    refine (lockFound_spec ht hin hu hset).imp ?_
    rintro _ v ⟨hv, hty⟩
    have hk := Finset.mem_singleton_self k
    have hat : View.At { g with node := node, refs := [(k, i)], locks := {k}, op := true } k i :=
      .inl List.mem_cons_self
    simp only [wp_bind, wp_inode]
    rw [hv.din_type hk, hv.inum_eq hat]
    refine wp_ite (fun hdir => ?_) fun hdir => ?_
    · simp only [wp_bind, wp_pure]
      exact finishSame_spec hidle hv hfr.keeps (fun hs => (hset hs).1)
        (fun _ ht => ht.imp fun _ hg => hg ▸ .failed) fun _ => .inl
    · rw [wp_bind]
      refine (iunlock_spec hv hk _).imp ?_
      rintro _ w ⟨hw, -, hic⟩
      dsimp only at hw
      rw [Finset.erase_singleton, ← hidle.locks] at hw
      have hvalid : (w.icache k).valid = true := by
        rw [hic, upd_same]
        exact (hv.cache.locked k hk).2
      have hrun : View.Running { g with node := node, refs := [(k, i)], op := true } :=
        ⟨hidle.owner, hidle.live, hidle.closed⟩
      have hcwd : (w.proc w.cur).cwd = (g.user.proc g.cur).cwd := by rw [hw.proc_eq, hw.cur]
      have hx := hw.goTo hrun rfl hty hvalid
      have hq := Quiet.goTo hw hrun rfl
      simp only [wp_bind, wp_myproc]
      rw [hcwd]
      refine (iput_read hx rfl (List.Perm.refl _) (by simp [hidle.locks]) fun h0 => ?_).mono ?_
        fun _ => .inl
      · exact (hw.cache.held _ hrun.holds_cwd).2.2 h0
      intro _ y hy
      refine (endOp_spec hy rfl _).imp ?_
      rintro _ z ⟨hz, -⟩
      simp only [wp_modify, wp_pure]
      rw [hz.cur]
      dsimp only
      rw [hz.setProc_eq]
      have hend := hz.setUser (g.moved k)
      dsimp only at hend
      have hall := hq.trans (Quiet.put (List.Perm.refl _))
      refine ⟨_, hend, ⟨rfl, hidle.closed, rfl, hidle.locks, rfl⟩, rfl,
        (hfr.trans hall.1).keeps, fun hs _ => ?_⟩
      obtain ⟨rfl, -⟩ := hset hs
      exact ⟨.done (by decide) hall.1, hall.2 (hs.more _ hidle.refs)⟩

/-! ## `exec` -/

theorem loaduvm_spec (hk : k ∈ g.locks) (hat : g.At k i) (offset sz : Nat)
    (E : Stop → Prop) : ∀ (fuel j : Nat) {s : Fs}, Inv g s →
    Wp (loaduvm k offset sz fuel j) s (fun _ t => Inv g t) E
  | 0, _, _, h => wp_pure.mpr h
  | fuel + 1, j, s, h => by
    unfold loaduvm
    refine wp_ite (fun _ => ?_) fun _ => wp_pure.mpr h
    refine (readi_inv h hk hat _ _ E).seq (fun r t ht => ?_)
    exact wp_ite (fun _ => wp_pure.mpr ht) fun _ => loaduvm_spec hk hat offset sz E fuel _ ht

theorem loadSegments_spec (vm : ExecVm) (hk : k ∈ g.locks) (hat : g.At k i) (E : Stop → Prop) :
    ∀ (phnum off sz : Nat) {s : Fs}, Inv g s → Wp (loadSegments vm k phnum off sz) s (fun _ t => Inv g t) E
  | 0, _, _, _, h => wp_pure.mpr h
  | phnum + 1, off, sz, s, h => by
    unfold loadSegments
    refine (readi_inv h hk hat _ _ E).seq (fun r t ht => ?_)
    refine wp_ite (fun _ => wp_pure.mpr ht) fun _ => wp_ite (fun _ => ?_) fun _ => ?_
    · exact loadSegments_spec vm hk hat E phnum _ _ ht
    refine wp_ite (fun _ => wp_pure.mpr ht) fun _ => wp_ite (fun _ => wp_pure.mpr ht) fun _ =>
      wp_ite (fun _ => wp_pure.mpr ht) fun _ => wp_ite (fun _ => wp_pure.mpr ht) fun _ => ?_
    refine (loaduvm_spec hk hat _ _ E _ _ ht).seq (fun b u hu => ?_)
    exact wp_ite (fun _ => loadSegments_spec vm hk hat E phnum _ _ hu) fun _ => wp_pure.mpr hu

theorem loadProgram_spec (vm : ExecVm) (h : Inv g s) (hk : k ∈ g.locks) (hat : g.At k i)
    (E : Stop → Prop) : Wp (loadProgram vm k) s (fun _ t => Inv g t) E := by
  unfold loadProgram
  refine (readi_inv h hk hat _ _ E).seq (fun r t ht => ?_)
  exact wp_ite (fun _ => wp_pure.mpr ht) fun _ => wp_ite (fun _ => wp_pure.mpr ht) fun _ =>
    wp_ite (fun _ => wp_pure.mpr ht) fun _ => loadSegments_spec vm hk hat E _ _ _ ht

theorem exec_spec (h : Inv g s) (hidle : g.Idle) (vm : ExecVm) (path : Option (List UInt8)) :
    Wp (exec vm path) s (fun _ t => CallPost g (fun g' => Frees g.node g'.node) t)
      (CallStop { g with op := true }) := by
  unfold exec
  cases path with
  | none => exact wp_pure.mpr ⟨g, h, hidle.toRest, rfl, .refl _, fun hs _ => ⟨Frees.refl _, hs⟩⟩
  | some path =>
    dsimp only
    refine (beginOp_spec h hidle.op _).seq ?_
    rintro _ t ⟨ht, -⟩
    have hin := hidle.inCall
    refine (namei_spec ht hin.toRunning rfl hidle.locks path).bind ?_
      fun e he => he.callStop ht hin.toRunning
    rintro (_ | k) u
    · rintro ⟨node, hu, hfr, hset⟩
      simp only [wp_bind, wp_pure]
      refine finish_spec hidle hu hfr.keeps (fun hs _ => ?_) fun _ => id
      obtain ⟨rfl, -⟩ := hset hs
      exact ⟨hs, Frees.refl _⟩
    rintro ⟨node, i, hu, hfr, hset⟩
    dsimp only at hu ⊢
    rw [wp_bind]
    refine (lockFound_spec ht hin hu hset).imp ?_
    rintro _ v ⟨hv, -⟩
    rw [wp_bind]
    refine (loadProgram_spec vm hv (Finset.mem_singleton_self _) (.inl List.mem_cons_self) _).imp
      fun b w hw => ?_
    simp only [wp_bind]
    refine finishPut_spec (P := fun g' => Frees g.node g'.node) hidle hw hfr.keeps
      (fun hs _ => ?_) (fun z hz => ?_) fun _ => .inl
    · obtain ⟨rfl, -⟩ := hset hs
      exact ⟨hs.more _ hidle.refs, fun _ hf => hf⟩
    · exact wp_ite (fun _ => wp_pure.mpr hz) fun _ => wp_pure.mpr hz

/-! ## `mkdir`, `mknod` -/

variable {type : Int16}

theorem Created.settled {major minor : Int16} {node : Nat → Node}
    (h : Created g path type major minor node i) (hs : g.Settled) (hn : g.NonNeg)
    (hrefs : g.refs = []) (k : Fin NINODE) : View.Settled { g with node := node, refs := [(k, i)] } := by
  cases h with
  | found _ _ _ => exact hs.more _ hrefs
  | @made d i x hd hfind hal hi0 hi hfree =>
    intro j hj hty h0
    by_cases he : j = i
    · exact ⟨k, .inl (by rw [he]; exact List.mem_cons_self)⟩
    refine View.Uses.mono (r := g.refs) (by simp [hrefs]) (hs j hj ?_ ?_)
    · change (upd (upd g.node i _) d _ j).type ≠ 0 at hty
      by_cases hjd : j = d
      · subst hjd
        rw [upd_same] at hty
        unfold Node.withNew at hty
        split at hty <;> exact hty
      · rwa [upd_ne _ _ hjd, upd_ne _ _ he] at hty
    · change (upd (upd g.node i _) d _ j).nlink = 0 at h0
      by_cases hjd : j = d
      · subst hjd
        rw [upd_same] at h0
        exact Node.withNew_nlink (hn j hj) h0
      · rwa [upd_ne _ _ hjd, upd_ne _ _ he] at h0

theorem Created.closed {major minor : Int16} {node : Nat → Node}
    {op : Bool} (h : Created { g with op := op } path type major minor node i) :
    Created g path type major minor node i := by
  cases h with
  | found h1 h2 h3 => exact .found h1 h2 h3
  | made h1 h2 h3 h4 h5 h6 => exact .made h1 h2 h3 h4 h5 h6

/-- The call makes an inode, or finds a file. -/
def Makes (g : View) (path : List UInt8) (type major minor : Int16) (g' : View) : Prop :=
  ∃ node i, Created g path type major minor node i ∧ Frees node g'.node

theorem makeNode_spec (h : Inv g s) (hidle : g.Idle) (path : Option (List UInt8))
    (htype : type ≠ 0) (major minor : Int16) : Wp (makeNode path type major minor) s
      (fun r t => CallPost g (Outcome g (fun g' =>
        ∃ p, path = some p ∧ Makes g p type major minor g') r) t) (CallStop { g with op := true }) := by
  unfold makeNode
  refine (beginOp_spec h hidle.op _).seq ?_
  rintro _ t ⟨ht, -⟩
  have hin := hidle.inCall
  rw [wp_bind]
  cases path with
  | none =>
    refine wp_pure.mpr ?_
    simp only [wp_bind, wp_pure]
    exact finish_spec hidle ht (.refl _) (fun hs _ => ⟨hs, .failed⟩) fun _ => id
  | some path =>
    refine (create_spec ht hin path htype major minor).imp ?_
    rintro (_ | k) u
    · rintro ⟨node, hu, hfr, hset⟩
      simp only [wp_bind, wp_pure]
      refine finish_spec hidle hu hfr.keeps (fun hs _ => ?_) fun _ => id
      obtain ⟨rfl, -⟩ := hset hs
      exact ⟨hs, .failed⟩
    · rintro ⟨node, i, hu, hkeeps, -, hset⟩
      simp only [wp_bind, wp_pure]
      refine finishPut_spec hidle hu hkeeps (fun hs hn => ?_) (fun _ => id) fun _ => .inl
      have hc := (hset hs hn).closed
      exact ⟨hc.settled hs hn hidle.refs k, fun _ hf =>
        .done (by decide) ⟨path, rfl, _, _, hc, hf⟩⟩

/-! ## `open` -/

/-- `open` makes a file: it is asked to, and the path names a place where nothing is. -/
def View.Creates (g : View) (path : Option (List UInt8)) (omode : Nat) : Prop :=
  omode &&& O_CREATE ≠ 0 ∧ ∃ p, path = some p ∧ g.Missing p

def OpenPost (g : View) (path : List UInt8) (omode : Nat) : Option (Fin NINODE) → Fs → Prop
  | none, t => ∃ node, Inv { g with node := node } t ∧ Keeps g.node node ∧
      (g.Settled → node = g.node ∧ ¬ g.Creates (some path) omode)
  | some k, t => ∃ node i, Inv { g with node := node, refs := [(k, i)], locks := {k} } t ∧
      Keeps g.node node ∧ (node i).type ≠ 0 ∧ ((node i).type = T_DIR → omode = O_RDONLY) ∧
      (g.Settled → g.NonNeg → node = g.node ∧ ¬ g.Creates (some path) omode ∨
        g.Creates (some path) omode ∧ g.Missing path ∧ Created g path T_FILE 0 0 node i)

theorem openInode_spec (h : Inv g s) (hin : g.InCall) (path : List UInt8) (omode : Nat) :
    Wp (openInode path omode) s (OpenPost g path omode) (CallStop g) := by
  unfold openInode
  refine wp_ite (fun hmode => ?_) fun hmode => ?_
  · refine (create_spec h hin path (by decide) 0 0).imp ?_
    rintro (_ | k) t
    · rintro ⟨node, ht, hfr, hset⟩
      refine ⟨node, ht, hfr.keeps, fun hs => ⟨(hset hs).1, ?_⟩⟩
      rintro ⟨-, _, hp, hm⟩
      cases hp
      exact (hset hs).2 hm
    · rintro ⟨node, i, ht, hkeeps, hty, hset⟩
      have hfile : (node i).type = T_FILE := hty.elim id id
      refine ⟨node, i, ht, hkeeps, by rw [hfile]; decide, fun hc => ?_, fun hs hn => ?_⟩
      · rw [hfile] at hc
        exact absurd hc (by decide)
      · have hc := hset hs hn
        rcases hc.same_or_missing with ⟨hsame, hm⟩ | hm
        · refine .inl ⟨hsame, ?_⟩
          rintro ⟨-, _, hp, hm'⟩
          cases hp
          exact hm hm'
        · exact .inr ⟨⟨hmode, path, rfl, hm⟩, hm, hc⟩
  · have hno : ¬ g.Creates (some path) omode := fun hc => hc.1 (not_not.mp hmode)
    refine (namei_spec h hin.toRunning hin.op hin.locks path).bind ?_
      fun e he => he.callStop h hin.toRunning
    rintro (_ | k) t
    · rintro ⟨node, ht, hfr, hset⟩
      exact wp_pure.mpr ⟨node, ht, hfr.keeps, fun hs => ⟨(hset hs).1, hno⟩⟩
    rintro ⟨node, i, ht, hfr, hset⟩
    dsimp only
    rw [wp_bind]
    refine (lockFound_spec h hin ht hset).imp ?_
    rintro _ u ⟨hu, hty⟩
    have hk := Finset.mem_singleton_self k
    have hdtype : (u.icache k).din.type = (node i).type := by
      rw [hu.din_type hk, hu.inum_eq (.inl List.mem_cons_self)]
    simp only [wp_bind, wp_inode]
    rw [hdtype]
    refine wp_ite (fun hc => ?_) fun hc => ?_
    · refine (iunlockput_spec hu hin.op (List.Perm.refl _) hk).bind ?_ fun _ => .inl
      intro _ v hv
      dsimp only at hv
      rw [Finset.erase_singleton, ← hin.locks, ← hin.refs] at hv
      refine wp_pure.mpr ⟨_, hv, (hfr.trans (View.frees_drop _ _ _)).keeps, fun hs => ⟨?_, hno⟩⟩
      obtain ⟨rfl, -⟩ := hset hs
      have hlt := (ht.at_lt (.inl List.mem_cons_self)).2
      exact View.drop_keep fun h0 => View.Uses.mono (r := g.refs) (fun _ => id) (hs i hlt hty h0)
    · refine wp_pure.mpr ⟨node, i, hu, hfr.keeps, hty, fun hd => by_contra fun hm => hc ⟨hd, hm⟩, fun hs _ => ?_⟩
      exact .inl ⟨(hset hs).1, hno⟩

def FileallocPost (g : View) (s : Fs) : Option (Fin NFILE) → Fs → Prop
  | none, t => t = s
  | some f, t => (g.user.ftable f).ref = 0 ∧
      Inv (g.withUser (g.user.setFile f { g.user.ftable f with ref := 1 })) t

theorem filealloc_spec (h : Inv g s) (hown : g.owner = g.user) (hclosed : g.user.Closed)
    (E : Stop → Prop) : Wp filealloc s (FileallocPost g s) E := by
  unfold filealloc
  rw [wp_bind, wp_get]
  split
  next f hf =>
    have h0 : (g.user.ftable f).ref = 0 := by
      have := firstFin_some hf
      rw [decide_eq_true_iff, h.ftable_eq] at this
      exact this
    simp only [wp_bind, wp_setFile, wp_pure]
    refine ⟨h0, h.setFile_same hown f (fun fl => { fl with ref := 1 }) (fun l => ?_) rfl⟩
    refine ⟨fun hc => absurd hc.2.1 (hclosed f h0), fun hc => ?_⟩
    exact absurd hc.1 (by omega)
  next => exact wp_pure.mpr rfl

variable {f : Fin NFILE}

theorem fileclose_fresh (h : Inv g s) (hown : g.owner = g.user)
    (hone : (g.user.ftable f).ref = 1) (hty : (g.user.ftable f).type ≠ .inode) (E : Stop → Prop) :
    Wp (fileclose f) s (fun _ t => Inv (g.withUser (g.user.setFile f
      { g.user.ftable f with ref := 0, type := .none })) t) E := by
  have hsame : ∀ l, File.OpenOn { g.user.ftable f with ref := 0, type := FdType.none } l ↔
      (g.user.ftable f).OpenOn l := fun l =>
    ⟨fun hc => absurd hc.1 (Nat.lt_irrefl 0), fun hc => absurd hc.2.1 hty⟩
  have hend := h.setFile_same hown f (fun fl => { fl with ref := 0, type := FdType.none }) hsame rfl
  unfold fileclose
  simp only [wp_bind, wp_file]
  rw [h.ftable_eq]
  refine wp_ite (fun hc => absurd hc (by omega)) fun _ => wp_ite (fun hc => absurd hc (by omega))
    fun _ => ?_
  rw [wp_bind, wp_setFile]
  cases hft : (g.user.ftable f).type with
  | inode => exact absurd hft hty
  | pipe => exact wp_pure.mpr hend
  | none => exact wp_pure.mpr hend

variable {u : User}

section

variable (hown : g.owner = g.user) (hholds : ∀ l, u.holds l = g.user.holds l)

include hown hholds

theorem View.uses_withUser (j : Nat) : (g.withUser u).Uses j ↔ g.Uses j := by
  unfold View.Uses View.At
  rw [hown]
  unfold View.withUser
  simp only [hholds]

theorem View.settled_withUser : (g.withUser u).Settled ↔ g.Settled := by
  unfold View.Settled
  simp only [View.uses_withUser hown hholds]
  exact Iff.rfl

theorem CallPost.retable {P : View → Prop} (h : CallPost (g.withUser u) P t) : CallPost g P t := by
  obtain ⟨g', h1, h2, h3, h4, h5⟩ := h
  exact ⟨g', h1, h2, h3, h4, fun hs hnn => h5 ((View.settled_withUser hown hholds).mpr hs) hnn⟩

end

theorem Quiet.give (h : Inv g s) (hown : g.owner = g.user) (hrefs : g.refs = [(k, i)])
    (hholds : ∀ l, u.holds l = g.user.holds l + if l = k then 1 else 0) :
    Quiet g { g with user := u, owner := u, inum := upd g.inum k i, refs := [] } := by
  have hat : g.At k i := .inl (by rw [hrefs]; exact List.mem_cons_self)
  refine Quiet.of_uses rfl rfl fun j hj => ?_
  obtain ⟨l, hl⟩ := hj
  refine ⟨l, .inr ?_⟩
  change 0 < u.holds l ∧ upd g.inum k i l = j
  rw [hholds]
  rcases hl with hl | ⟨hl, rfl⟩
  · rw [hrefs, List.mem_singleton, Prod.mk.injEq] at hl
    obtain ⟨rfl, rfl⟩ := hl
    rw [if_pos rfl, upd_same]
    exact ⟨Nat.succ_pos _, rfl⟩
  · refine ⟨Nat.add_pos_left (by rw [← hown]; exact hl) _, ?_⟩
    by_cases he : l = k
    · subst he
      rw [upd_same, h.held_inum hat hl]
    · exact upd_ne _ _ he

/-- The file that `open` returns a descriptor for. -/
def File.opened (fl : File) (k : Fin NINODE) (omode : Nat) : File :=
  { fl with
    type := .inode
    ip := k
    off := 0
    readable := omode &&& O_WRONLY == 0
    writable := omode &&& O_WRONLY != 0 || omode &&& O_RDWR != 0 }

theorem File.writable_opened {fl : File} {omode : Nat} (h : (fl.opened k omode).writable = true) :
    omode ≠ O_RDONLY := by
  rintro rfl
  exact absurd h (by change ¬ ((0 &&& O_WRONLY != 0 || 0 &&& O_RDWR != 0) = true); decide)

/-- What `open` does to the nodes. -/
def OpenEffect (g : View) (path : Option (List UInt8)) (omode : Nat) (node : Nat → Node) : Prop :=
  node = g.node ∧ ¬ g.Creates path omode ∨
  g.Creates path omode ∧ ∃ p i, path = some p ∧ g.Missing p ∧ Created g p T_FILE 0 0 node i

theorem OpenEffect.frees_or_makes {path : Option (List UInt8)} {omode : Nat}
    (h : OpenEffect g path omode g'.node) :
    Frees g.node g'.node ∨ ∃ p, path = some p ∧ Makes g p T_FILE 0 0 g' := by
  rcases h with ⟨h1, -⟩ | ⟨-, p, i, hp, -, hc⟩
  · exact .inl (h1 ▸ Frees.refl _)
  · exact .inr ⟨p, hp, _, i, hc, Frees.refl _⟩

/-- The processes have the same descriptors and directories, and the open files are the same. -/
structure User.Same (u u' : User) : Prop where
  proc : u'.proc = u.proc
  ref : ∀ f, (u'.ftable f).ref = (u.ftable f).ref
  file : ∀ f, (u.ftable f).ref ≠ 0 → u'.ftable f = u.ftable f

theorem User.Same.refl (u : User) : u.Same u := ⟨rfl, fun _ => rfl, fun _ _ => rfl⟩

theorem User.Same.setFile {fl : File} (h0 : (u.ftable f).ref = 0)
    (hfl : fl.ref = 0) : u.Same (u.setFile f fl) := by
  have hne : ∀ {f'}, f' ≠ f → (u.setFile f fl).ftable f' = u.ftable f' := fun h => upd_ne _ _ h
  have hf : (u.setFile f fl).ftable f = fl := upd_same _ _ _
  refine ⟨rfl, fun f' => ?_, fun f' hf' => hne ?_⟩
  · by_cases he : f' = f
    · rw [he, hf, hfl, h0]
    · rw [hne he]
  · rintro rfl
    exact hf' h0

/-- What `open` did when it returned `r`. -/
def SysOpenPost (g : View) (path : Option (List UInt8)) (omode : Nat) (r : Int) (g' : View) : Prop :=
  OpenEffect g path omode g'.node ∧ (r = -1 → g'.inum = g.inum ∧ g.user.Same g'.user)

theorem Created.nlink_ne_zero {node : Nat → Node}
    (h : Created g path T_FILE 0 0 node i) (hm : g.Missing path) : (node i).nlink ≠ 0 := by
  cases h with
  | found hd hfind _ => exact absurd hm (View.not_missing hd hfind)
  | @made d i x hd hfind hal hi0 hi hfree =>
    have hne : i ≠ d := by
      rintro rfl
      exact absurd (hfree.symm.trans (resolve_dir _ _ _ hd)) (by decide)
    change (upd (upd g.node i _) d _ i).nlink ≠ 0
    rw [upd_ne _ _ hne, upd_same, newNode, if_neg (by decide)]
    exact (by decide : (1 : Int16) ≠ 0)

theorem setOpened_spec (omode : Nat) (h : Inv g s) (hrest : g.owner = g.user) (hclosed : g.user.Closed)
    (hrefs : g.refs = [(k, i)]) (hlocks : g.locks = ∅) (hop : g.op = false)
    (hone : (g.user.ftable f).ref = 1) (hft : (g.user.ftable f).type ≠ .inode)
    (hty : (g.node i).type ≠ 0) (hdir : (g.node i).type = T_DIR → omode = O_RDONLY)
    (hv : (s.icache k).valid = true) :
    ∃ g', Inv g' (s.setFile f fun fl => fl.opened k omode) ∧ g'.Rest ∧ g'.sb = g.sb ∧
      g'.node = g.node ∧ Quiet g g' := by
  have hat : g.At k i := .inl (by rw [hrefs]; exact List.mem_cons_self)
  have hholds : ∀ l, (g.user.setFile f ((g.user.ftable f).opened k omode)).holds l =
      g.user.holds l + if l = k then 1 else 0 := by
    intro l
    have := g.user.holds_setFile f ((g.user.ftable f).opened k omode) l
    have hnew : ((g.user.ftable f).opened k omode).OpenOn l ↔ l = k :=
      ⟨fun hc => hc.2.2.symm, fun hc => ⟨hone ▸ Nat.one_pos, rfl, hc.symm⟩⟩
    rw [if_neg (fun hc : (g.user.ftable f).OpenOn l => hft hc.2.1)] at this
    simp only [hnew] at this
    omega
  have hwriters := h.writers_upd hat
  rw [hrest] at hwriters
  rw [h.setFile_eq]
  refine ⟨_, h.give hrest (by rw [hrefs]) hholds hty (fun _ => hv)
    (User.Writers.setFile hwriters f fun _ _ hwr => ?_), ⟨rfl, ?_, rfl, hlocks, hop⟩, rfl, rfl,
    Quiet.give h hrest hrefs hholds⟩
  · change (g.node (upd g.inum k i k)).type ≠ T_DIR
    rw [upd_same]
    exact fun hc => File.writable_opened hwr (hdir hc)
  · refine User.Closed.setFile hclosed fun h0 => ?_
    change (g.user.ftable f).ref = 0 at h0
    omega

theorem sysOpen_spec (h : Inv g s) (hidle : g.Idle) (path : Option (List UInt8)) (omode : Nat) :
    Wp (sysOpen path omode) s (fun r t => CallPost g (SysOpenPost g path omode r) t)
      (CallStop { g with op := true }) := by
  unfold sysOpen
  cases path with
  | none =>
    refine wp_pure.mpr ⟨g, h, hidle.toRest, rfl, .refl _, fun hs _ => ⟨⟨.inl ⟨rfl, ?_⟩, fun _ => ⟨rfl, .refl _⟩⟩, hs⟩⟩
    rintro ⟨-, _, hc, -⟩
    cases hc
  | some path =>
    dsimp only
    refine (beginOp_spec h hidle.op _).seq ?_
    rintro _ t ⟨ht, -⟩
    have hin := hidle.inCall
    refine (openInode_spec ht hin path omode).seq ?_
    rintro (_ | k) u
    · rintro ⟨node, hu, hkeeps, hset⟩
      simp only [wp_bind, wp_pure]
      refine finish_spec hidle hu hkeeps (fun hs _ => ?_) fun _ => id
      obtain ⟨rfl, hno⟩ := hset hs
      exact ⟨hs, .inl ⟨rfl, hno⟩, fun _ => ⟨rfl, .refl _⟩⟩
    rintro ⟨node, i, hu, hkeeps, hty, hdir, hset⟩
    -- What the call does to the nodes, however it ends, and that the inode stays.
    have heff : g.Settled → g.NonNeg → OpenEffect g (some path) omode node := by
      intro hs hn
      refine (hset hs hn).imp id ?_
      rintro ⟨h1, h2, hc⟩
      exact ⟨h1, path, i, rfl, h2, hc.closed⟩
    have hkeep : g.Settled → g.NonNeg → (node i).nlink = 0 → g.Uses i := by
      intro hs hn h0
      rcases hset hs hn with ⟨rfl, -⟩ | ⟨-, h2, hc⟩
      · exact hs i (hu.at_lt (.inl List.mem_cons_self)).2 hty h0
      · exact absurd h0 (hc.closed.nlink_ne_zero h2)
    have hmore : g.Settled → g.NonNeg → View.Settled { g with node := node, refs := [(k, i)] } := by
      intro hs hn
      rcases hset hs hn with ⟨rfl, -⟩ | ⟨-, -, hc⟩
      · exact hs.more _ hidle.refs
      · exact hc.closed.settled hs hn hidle.refs k
    have hdone : g.Settled → g.NonNeg → View.Settled { g with node := node } := by
      intro hs hn
      have := (hmore hs hn).put (k := k) (i := i) (r := g.refs) (by rw [hidle.refs])
      rw [View.drop_keep (hkeep hs hn)] at this
      exact this
    dsimp only
    rw [wp_bind]
    refine (filealloc_spec hu hidle.owner hidle.closed _).imp ?_
    rintro (_ | f) v
    · intro hv
      rw [FileallocPost] at hv
      rw [hv]
      simp only [wp_bind, wp_pure]
      exact finishKept_spec hidle hu hkeeps hkeep (fun hs hn => ⟨hdone hs hn, heff hs hn, fun _ =>
        ⟨rfl, .refl _⟩⟩) (fun _ => id) fun _ => .inl
    rintro ⟨h0, hv⟩
    dsimp only at h0 hv
    obtain ⟨u₁, hu₁⟩ : ∃ u₁, u₁ = g.user.setFile f { g.user.ftable f with ref := 1 } := ⟨_, rfl⟩
    have hf₁ : u₁.ftable f = { g.user.ftable f with ref := 1 } := by
      rw [hu₁]
      exact upd_same _ _ _
    have hclosed₁ : u₁.Closed := by
      rw [hu₁]
      exact User.Closed.setFile hidle.closed fun hc => absurd hc (Nat.one_ne_zero)
    have hft₁ : (u₁.ftable f).type ≠ .inode := by
      rw [hf₁]
      exact hidle.closed f h0
    have hsame₁ : ∀ l, u₁.holds l = g.user.holds l := by
      rw [hu₁]
      refine holds_setFile_same fun l => ?_
      exact ⟨fun hc => absurd hc.2.1 (hidle.closed f h0), fun hc => absurd hc.1 (by omega)⟩
    rw [← hu₁] at hv
    dsimp only
    rw [wp_bind]
    refine (fdalloc_spec hv rfl f _).imp ?_
    rintro (_ | fd) w
    · intro hw
      rw [FdallocPost] at hw
      rw [hw]
      simp only [wp_bind, wp_pure]
      refine (fileclose_fresh hv rfl (by rw [View.withUser, hf₁]) hft₁ _).imp fun _ x hx => ?_
      obtain ⟨u₂, hu₂⟩ : ∃ u₂, u₂ = u₁.setFile f { u₁.ftable f with ref := 0, type := .none } :=
        ⟨_, rfl⟩
      have hsame₂ : ∀ l, u₂.holds l = g.user.holds l := fun l => by
        rw [← hsame₁, hu₂]
        exact holds_setFile_same (fun _ => ⟨fun hc => absurd hc.1 (Nat.lt_irrefl 0),
          fun hc => absurd hc.2.1 hft₁⟩) l
      have hidle₂ : (g.withUser u₂).Idle := by
        refine ⟨hidle.toRest.withUser ?_, ?_⟩
        · rw [hu₂]
          exact User.Closed.setFile hclosed₁ fun _ => FdType.noConfusion
        · rw [hu₂, hu₁]
          exact hidle.live
      have hx' : Inv { g.withUser u₂ with
          node := node, refs := [(k, i)], locks := {k}, op := true } x := by
        rw [hu₂]
        exact hx
      have hset₂ : (g.withUser u₂).Settled → g.Settled :=
        (View.settled_withUser hidle.owner hsame₂).mp
      refine finishKept_spec hidle₂ hx' hkeeps (fun hs hn h0 => ?_) (fun hs hn => ⟨?_, heff (hset₂ hs) hn,
        fun _ => ⟨rfl, ?_⟩⟩) (fun t ht => CallPost.retable hidle.owner hsame₂ ht) fun _ => .inl
      · exact (View.uses_withUser hidle.owner hsame₂ i).mpr (hkeep (hset₂ hs) hn h0)
      · exact (View.settled_withUser (g := { g with node := node }) hidle.owner hsame₂).mpr
          (hdone (hset₂ hs) hn)
      · have hu₂' : u₂ = g.user.setFile f { u₁.ftable f with ref := 0, type := .none } := by
          rw [hu₂, hu₁, User.setFile, User.setFile, User.setFile]
          exact congrArg (fun x => (⟨x, g.user.proc⟩ : User)) (upd_upd _ _ _ _)
        change g.user.Same u₂
        rw [hu₂']
        exact .setFile h0 rfl
    · intro hw
      obtain ⟨u₃, hu₃⟩ : ∃ u₃, u₃ = u₁.setProc g.cur
        ((u₁.proc g.cur).setOfile fd (some f)) := ⟨_, rfl⟩
      have hsame₃ : ∀ l, u₃.holds l = g.user.holds l := fun l => by
        have hcwd : ∀ m, ((u₁.proc g.cur).setOfile fd (some f)).CwdIs m ↔
            (u₁.proc g.cur).CwdIs m := fun _ => Iff.rfl
        rw [← hsame₁, hu₃]
        exact holds_setProc_same hcwd l
      have hw' : Inv { g.withUser u₃ with
          node := node, refs := [(k, i)], locks := {k}, op := true } w := by
        rw [hu₃]
        exact hw
      have hk := Finset.mem_singleton_self k
      dsimp only
      rw [wp_bind]
      refine (iunlock_spec hw' hk _).imp ?_
      rintro _ x ⟨hx, -, hic⟩
      rw [wp_bind]
      refine (endOp_spec hx rfl _).imp ?_
      rintro _ y ⟨hy, hicy⟩
      simp only [wp_bind, wp_setFile, wp_pure]
      have hvalid : (y.icache k).valid = true := by
        rw [hicy, hic, upd_same]
        exact (hw'.cache.locked k hk).2
      have hfile : u₃.ftable f = { g.user.ftable f with ref := 1 } := by rw [hu₃, ← hf₁]; rfl
      obtain ⟨g', h1, h2, h3, h4, h5⟩ := setOpened_spec omode hy rfl
        (by rw [hu₃]; exact hclosed₁) rfl (Finset.erase_singleton _) rfl
        (by change (u₃.ftable f).ref = 1; rw [hfile])
        (by change (u₃.ftable f).type ≠ _; rw [hfile]; exact hidle.closed f h0) hty hdir hvalid
      refine ⟨g', h1, h2, h3, hkeeps.trans h5.1.keeps, fun hs hn => ⟨⟨?_, fun hr => ?_⟩, h5.2 ?_⟩⟩
      · rw [show g'.node = node from h4]
        exact heff hs hn
      · exact absurd hr (by omega)
      · exact (View.settled_withUser (g := { g with node := node, refs := [(k, i)] })
          hidle.owner hsame₃).mpr (hmore hs hn)

end Xv6
