import Xv6.Sched.Family

/-!
# What a step does to the times

The clock and the times of a process are advanced in different places, and slots are
used again. `ClockStep` says once what a step can do to the times of a slot, and the
invariants about times follow from its cases.
-/

namespace Xv6.Sched

open Table

variable {pol : Policy} {s t : Sys} {e : Event} {i : Fin NPROC}

/-- The fields the times at exit depend on. -/
def Proc.clock (p : Proc) : Int32 × Int32 × Int32 × Int32 :=
  (p.ctime, p.runningT, p.waitingT, p.turnaroundT)

/-- No slot comes to life. -/
def NoBirth (s t : Sys) : Prop := ∀ i, ((t.proc i).state.Alive → (s.proc i).state.Alive) ∧
  ((s.proc i).state = .unused → (t.proc i).state ≠ .embryo)

theorem Still.noBirth (h : Still s t) : NoBirth s t := fun i =>
  ⟨(h.slot i).alive.mp, fun hu hemb => by rw [(h.slot i).embryo, hu] at hemb; cases hemb⟩

/-- The process in slot `i` calls `exit()`, or finds itself killed at the gate. -/
def Quits (s : Sys) (e : Event) (i : Fin NPROC) : Prop :=
  s.cur = some i ∧ (e = .sysExit ∨ (e = .sysEntry ∨ e = .sysReturn) ∧ (s.proc i).killed = true)

/-- What can happen to the times of slot `i`. -/
inductive ClockStep (pol : Policy) (s : Sys) (e : Event) (t : Sys) (i : Fin NPROC) : Prop where
  /-- Nothing. A tick does not count if it ends a quantum. -/
  | kept (hu : (s.proc i).state = .unused → (t.proc i).state = .unused)
      (hc : (t.proc i).clock = (s.proc i).clock)
      (hx : (t.proc i).state.Alive → (t.proc i).pc = .exiting →
        (s.proc i).state.Alive ∧ (s.proc i).pc = .exiting ∨ Quits s e i)
      (hn : e = .trap .timer → s.cur = some i → pol = .default ∨ pol = .frr ∧ QUANTA ≤ (s.proc i).slot + 1)
  | born (hs : (s.proc i).state = .unused) (ht : (t.proc i).state = .embryo)
      (hc : (t.proc i).ctime = s.ticks.toInt32) (hr : (t.proc i).runningT = 0) (hw : (t.proc i).waitingT = 0)
  | reaped (hs : (s.proc i).state = .zombie) (ht : (t.proc i).state = .unused) (he : e = .wait)
      (hr : (t.proc i).runningT = (s.proc i).runningT)
  | ran (he : e = .trap .timer) (hcur : s.cur = some i) (ht : t.ticks = s.ticks + 1)
      (hpc : (t.proc i).pc = (s.proc i).pc)
      (hc : (t.proc i).clock = { s.proc i with runningT := (s.proc i).runningT + 1 : Proc }.clock)
  | stopped (hcur : s.cur = some i) (hn : e = .trap .timer → (s.proc i).killed = true ∧ (s.proc i).pc = .user)
      (hc : (t.proc i).clock = ((s.proc i).ctime, (s.proc i).runningT,
        t.ticks.toInt32 - (s.proc i).ctime - (s.proc i).runningT, t.ticks.toInt32 - (s.proc i).ctime))

theorem Kind.ticks (hk : Kind s e t) :
    t.ticks = s.ticks ∨ (e = .idle .timer ∨ e = .trap .timer) ∧ t.ticks = s.ticks + 1 := by
  cases hk with
  | still _ _ _ _ hticks => exact hticks
  | turn => exact .inl rfl
  | alloc => exact .inl rfl
  | forked => exact .inl rfl
  | reap => exact .inl rfl
  | exit _ _ ht => exact .inl (exitEnd_spec ht).2.1.ticks

theorem Kind.used (hk : Kind s e t) (hf : Family s) (he : e ≠ .allocproc) (i : Fin NPROC) :
    ((s.proc i).state = .unused → (t.proc i).state = .unused) ∧
      ((t.proc i).state.Alive → (t.proc i).pc = .exiting → (s.proc i).state.Alive) := by
  cases hk with
  | still hs => exact ⟨(hs.slot i).unused.mpr, fun ha _ => (hs.noBirth i).1 ha⟩
  | @turn c _ =>
    have hst : Agree Proc.state s (s.set c fun p => { p with pidtimes := p.pidtimes + 1 }) :=
      set_agree fun _ => rfl
    rw [hst i]
    exact ⟨id, fun ha _ => ha⟩
  | alloc => exact absurd rfl he
  | @forked c j hcur hpc ok =>
    have hj := (hf.forking c j hpc).2
    have hr := hf.alive_cur hcur
    have hne : c ≠ j := fun h => by rw [h, hj] at hr; simp [ProcState.Alive] at hr
    have hfields := Family.forkDone_fields (s := s) hne ok i
    rw [hfields.1, hfields.2.2]
    grind [ProcState.Alive]
  | reap _ j _ hz =>
    simp only [Sys.set, upd_apply]
    grind [ProcState.Alive]
  | @exit c _ hcur _ ht =>
    have hslot := (exitEnd_spec ht).2.2 i
    have hr := hf.alive_cur hcur
    have h₁ := hslot.state
    have h₂ := hslot.zombie
    grind [ProcState.Alive]

theorem ClockStep.of_agree (hk : Kind s e t) (hf : Family s) (he : e ≠ .allocproc)
    (hc : Agree Proc.clock s t) (hpc : (t.proc i).pc = .exiting → (s.proc i).pc = .exiting ∨ Quits s e i)
    (hn : e = .trap .timer → s.cur = some i → pol = .default ∨ pol = .frr ∧ QUANTA ≤ (s.proc i).slot + 1) :
    ClockStep pol s e t i :=
  .kept (hk.used hf he i).1 (hc i)
    (fun ha hx => (hpc hx).imp_left fun h => ⟨(hk.used hf he i).2 ha hx, h⟩) hn

theorem pc_of_set {c : Fin NPROC} {f : Proc → Proc} (hf : (f (s.proc c)).pc = .exiting →
    (s.proc c).pc = .exiting) (i : Fin NPROC) (h : ((s.set c f).proc i).pc = .exiting) :
    (s.proc i).pc = .exiting := by
  simp only [Sys.set, upd_apply] at h
  split at h
  case isTrue hi => exact hi ▸ hf h
  case isFalse => exact h

theorem ClockStep.of_forced {u : Sys} {c : Fin NPROC} (hk : Kind s e (forced u c)) (hf : Family s)
    (he : e ≠ .allocproc) (hcur : s.cur = some c) (hu : Agree (fun p => (p.clock, p.pc)) s u)
    (hn : e = .trap .timer → (s.proc c).killed = true ∧ (s.proc c).pc = .user) :
    ClockStep pol s e (forced u c) i := by
  have hi := hu i
  simp only [Prod.mk.injEq] at hi
  by_cases hic : i = c
  · subst hic
    refine .stopped hcur hn ?_
    simp only [Proc.clock, Prod.mk.injEq] at hi
    simp only [forced, Sys.set, upd_same, Proc.clock, hi]
  · have hsame : (forced u c).proc i = u.proc i := upd_ne _ _ hic
    have hne : s.cur ≠ some i := fun h => hic (Option.some.inj (h.symm.trans hcur))
    have hused := hk.used hf he i
    rw [hsame] at hused
    exact .kept (hsame ▸ hused.1) (hsame ▸ hi.1)
      (fun ha hx => .inl ⟨hused.2 (hsame ▸ ha) (hsame ▸ hx), hi.2 ▸ hsame ▸ hx⟩) fun _ h => absurd h hne

theorem onTick_slot (pol : Policy) (s : Sys) (c i : Fin NPROC) :
    ((onTick pol s c).proc i).pc = (s.proc i).pc ∧ (((onTick pol s c).proc i).clock = (s.proc i).clock ∧
          (i = c → pol = .default ∨ pol = .frr ∧ QUANTA ≤ (s.proc c).slot + 1) ∨
        i = c ∧ ((onTick pol s c).proc i).clock =
          { s.proc i with runningT := (s.proc i).runningT + 1 : Proc }.clock) := by
  by_cases hic : i = c
  · subst hic
    cases pol with
    | default => simp [onTick, yield, Sys.leave, Sys.set, Proc.clock]
    | frr =>
      unfold onTick
      dsimp only
      split
      case isTrue h => simp [yield, Sys.leave, Sys.set, Proc.clock, h]
      case isFalse => simp [Sys.set, Proc.clock]
    | fcfs => simp [onTick, Sys.set, Proc.clock]
  · have hsame : (onTick pol s c).proc i = s.proc i := by
      cases pol with
      | default => exact upd_ne _ _ hic
      | frr =>
        unfold onTick
        dsimp only
        split
        · exact (upd_ne _ _ hic).trans (upd_ne _ _ hic)
        · exact upd_ne _ _ hic
      | fcfs => exact upd_ne _ _ hic
    rw [hsame]
    exact ⟨rfl, .inl ⟨rfl, fun h => absurd h hic⟩⟩

theorem Step.clock (hs : Step pol s e t) (hf : Family s) (i : Fin NPROC) : ClockStep pol s e t i := by
  have hk := hs.kind hf.one
  have hhandle : ∀ c no, Agree (fun p => (p.clock, p.pc, p.slot)) s (handle s c no) := fun c no =>
    handle_agree (f := fun p => (p.clock, p.pc, p.slot)) (fun _ _ => rfl) (fun _ => rfl) c no
  have hhclock : ∀ c no, Agree Proc.clock s (handle s c no) := fun c no i => congrArg (·.1) (hhandle c no i)
  have hhpc : ∀ c no, ((handle s c no).proc i).pc = (s.proc i).pc := fun c no => congrArg (·.2.1) (hhandle c no i)
  cases hs with
  | pass => exact .of_agree hk hf (by rintro ⟨⟩) (fun _ => rfl) .inl (by rintro ⟨⟩)
  | dispatch _ p =>
    exact .of_agree hk hf (by rintro ⟨⟩) (set_agree (s := s) (c := p)
      (g := fun q => { q with state := .running, chan := none }) fun _ => rfl)
      (fun h => .inl (pc_of_set (s := s) (c := p) (f := fun q => { q with state := .running, chan := none }) id i h))
      (by rintro ⟨⟩)
  | @idle _ no =>
    exact .of_agree hk hf (by rintro ⟨⟩) (hhclock none no) (fun h => .inl (hhpc none no ▸ h)) (by rintro ⟨⟩)
  | @trap c hcur no hstay =>
    refine .of_agree hk hf (by rintro ⟨⟩) (hhclock _ no) (fun h => .inl (hhpc (some c) no ▸ h)) ?_
    have hone := (handle_still s (some c) no).one hf.one c
    rintro ⟨⟩ -
    exact absurd ⟨hone.mp ((handle_cur s _ _).trans hcur), rfl⟩ hstay
  | @tick c hcur =>
    obtain ⟨hpc, ⟨h, hn⟩ | ⟨rfl, h⟩⟩ := onTick_slot pol (handle s (some c) .timer) c i
    · have hused := hk.used hf (by rintro ⟨⟩) i
      refine .kept hused.1 (h.trans (hhclock _ _ i)) (fun ha hx => .inl ⟨hused.2 ha hx, ?_⟩) fun _ hi => ?_
      · rw [← hhpc (some c), ← hpc, hx]
      · have hic : i = c := Option.some.inj (hi.symm.trans hcur)
        subst hic
        have hslot : ((handle s (some i) .timer).proc i).slot = (s.proc i).slot :=
          congrArg (·.2.2) (hhandle (some i) .timer i)
        rw [← hslot]
        exact hn rfl
    · have hr : ((handle s (some i) .timer).proc i).clock = (s.proc i).clock := hhclock _ _ i
      refine .ran rfl hcur (onTick_ticks pol _ i) (hpc.trans (hhpc _ _)) (h.trans ?_)
      simp only [Proc.clock, Prod.mk.injEq] at hr ⊢
      exact ⟨hr.1, by rw [hr.2.1], hr.2.2⟩
  | @forced c hcur no _ hkilled huser =>
    refine .of_forced hk hf (by rintro ⟨⟩) hcur (fun i => ?_) ?_
    · exact congrArg (fun x => (x.1, x.2.1)) (hhandle (some c) no i)
    · rintro ⟨⟩
      exact ⟨hkilled.resolve_left (by rintro ⟨⟩), huser⟩
  | resume =>
    exact .of_agree hk hf (by rintro ⟨⟩) (set_agree fun _ => rfl) (fun h => .inl (pc_of_set id i h)) (by rintro ⟨⟩)
  | resumeForced hcur => exact .of_forced hk hf (by rintro ⟨⟩) hcur (set_agree fun _ => rfl) (by rintro ⟨⟩)
  | enter =>
    exact .of_agree hk hf (by rintro ⟨⟩) (set_agree fun _ => rfl) (fun h => .inl (pc_of_set (by rintro ⟨⟩) i h))
      (by rintro ⟨⟩)
  | leave =>
    exact .of_agree hk hf (by rintro ⟨⟩) (set_agree fun _ => rfl) (fun h => .inl (pc_of_set (by rintro ⟨⟩) i h))
      (by rintro ⟨⟩)
  | @quit c _ hcur _ he =>
    refine .of_agree hk hf (by rintro rfl; simp at he) (set_agree fun _ => rfl) (fun h => ?_)
      (by rintro rfl; simp at he)
    simp only [Sys.set, upd_apply] at h
    split at h
    case isTrue hic => exact .inr (hic ▸ ⟨hcur, he⟩)
    case isFalse => exact .inl h
  | @alloc c hcur _ j hfree =>
    have hcj : c ≠ j := fun h => by
      have := hf.alive_cur hcur
      rw [h, hfree] at this
      simp [ProcState.Alive] at this
    by_cases hij : i = j
    · subst hij
      refine .born hfree ?_ ?_ ?_ ?_ <;> simp [Sys.set, Proc.alloc, upd_ne _ _ hcj.symm]
    · refine .kept ?_ ?_ ?_ (by rintro ⟨⟩) <;> simp only [Sys.set, upd_apply, if_neg hij] <;>
        by_cases hic : i = c <;> grind [Proc.clock]
  | forked _ _ ok =>
    refine .of_agree hk hf (by rintro ⟨⟩) (forkDone_agree (fun _ => rfl) (fun _ => rfl) (fun _ => rfl) ok) (fun h => ?_)
      (by rintro ⟨⟩)
    simp only [forkDone, Sys.set, upd_apply] at h
    grind
  | reap _ j _ hz =>
    by_cases hij : i = j
    · subst hij
      exact .reaped hz (by simp [Sys.set]) rfl (by simp [Sys.set])
    · have hsame : (s.set j fun p => { p with
          pid := 0, parent := none, killed := false, ctime := 0, state := .unused }).proc i = s.proc i := upd_ne _ _ hij
      exact .kept (by rw [hsame]; exact id) (by rw [hsame]) (by rw [hsame]; exact fun ha hx => .inl ⟨ha, hx⟩)
        (by rintro ⟨⟩)
  | killed =>
    exact .of_agree hk hf (by rintro ⟨⟩) (set_agree fun _ => rfl) (fun h => .inl (pc_of_set id i h)) (by rintro ⟨⟩)
  | @sleep c _ _ chan he =>
    have hpc : Agree Proc.pc s (Sched.sleep s c chan) := sleep_agree fun _ => rfl
    exact .of_agree hk hf (by rintro rfl; simp at he) (sleep_agree fun _ => rfl) (fun h => .inl (hpc i ▸ h))
      (by rintro rfl; simp at he)
  | wakeup _ chan =>
    have hpc : Agree Proc.pc s (wakeup1 s chan) := (wakeup1_woken s chan).agree fun _ _ => rfl
    exact .of_agree hk hf (by rintro ⟨⟩) ((wakeup1_woken s chan).agree fun _ _ => rfl) (fun h => .inl (hpc i ▸ h))
      (by rintro ⟨⟩)
  | skip _ he => exact .kept id rfl (fun ha hx => .inl ⟨ha, hx⟩) (by rintro rfl; simp at he)
  | turn =>
    exact .of_agree hk hf (by rintro ⟨⟩) (set_agree fun _ => rfl) (fun h => .inl (pc_of_set id i h)) (by rintro ⟨⟩)
  | exit _ _ ht =>
    have hsame := ((exitEnd_spec ht).2.2 i).same
    refine .of_agree hk hf (by rintro ⟨⟩) (fun j => ?_) (fun h => .inl ?_) (by rintro ⟨⟩)
    · rw [((exitEnd_spec ht).2.2 j).same]
      rfl
    · rw [hsame] at h
      exact h

end Xv6.Sched
