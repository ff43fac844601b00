import Xv6.Sched.Family

/-!
# Processes without their times

The machine of `Sched.Machine` does not take a step that would access an array of
times outside its bounds. Here the arrays are left aside: `lifeStep` is the same
machine, in which `exit()` records nothing and the calls that read the times return.
A process sleeps on a slot of the table only in `wait()`, as in the kernel, where no
other code passes a `struct proc` to `sleep`.
-/

namespace Xv6.Sched

open Table Scan Trans

/-! ## The machine -/

/-- The part of `exit()` under the lock of the table, without the times. -/
def exitLife (s : Sys) (c : Fin NPROC) : Sys :=
  ((abandon (wakeParent s c) c).set c fun p => { p with state := .zombie }).leave

/-- A step of the machine, with the arrays of times left aside. -/
def lifeStep (pol : Policy) (s : Sys) (e : Event) : Option Sys :=
  match e, s.cur with
  | .exit, some c =>
    if (s.proc c).yielded = false ∧ (s.proc c).pc = .exiting then some (exitLife s c) else none
  | .runtime, some c =>
    if (s.proc c).yielded = false ∧ (s.proc c).pc = .kernel then some s else none
  | .waittime, some c =>
    if (s.proc c).yielded = false ∧ (s.proc c).pc = .kernel then some s else none
  | .turntime, some c =>
    if (s.proc c).yielded = false ∧ (s.proc c).pc = .kernel then
      some (s.set c fun p => { p with pidtimes := p.pidtimes + 1 })
    else none
  | .sleep (.proc _), _ => none
  | e, _ => step pol s e

variable {pol : Policy} {s t : Sys} {e : Event}

/-- What `exit()` of `c` does, slot by slot. -/
structure ExitLife (s : Sys) (c : Fin NPROC) (t : Sys) : Prop where
  cur : t.cur = none
  scan : t.scan = s.scan + 1
  globals : SameGlobals s t
  slot : ∀ j, t.proc j = { s.proc j with
    state := (t.proc j).state
    parent := if (s.proc j).parent = some c then some s.initproc else (s.proc j).parent }
  zombie : (t.proc c).state = .zombie
  state : ∀ j, j ≠ c → (t.proc j).state = (s.proc j).state ∨
    (s.proc j).state = .sleeping ∧ (t.proc j).state = .runnable
  /-- The parent is woken if it sleeps in `wait()`. -/
  parent : ∀ p, (s.proc c).parent = some p → (t.proc p).state = .sleeping →
    (s.proc p).chan ≠ some (.proc p)
  /-- So is `init`, if it gets a dead child. -/
  init : (∃ i, (s.proc i).parent = some c ∧ (s.proc i).state = .zombie) →
    (t.proc s.initproc).state = .sleeping → (s.proc s.initproc).chan ≠ some (.proc s.initproc)

theorem Proc.wake_sleeping {p : Proc} {chan : Chan} (h : (p.wake chan).state = .sleeping) :
    p.state = .sleeping ∧ p.chan ≠ some chan := by
  rw [Proc.wake] at h
  split at h
  case isTrue => cases h
  case isFalse hw => exact ⟨h, fun hc => hw ⟨h, hc⟩⟩

theorem wakeParent_sleeping {c j p : Fin NPROC} (h : ((wakeParent s c).proc j).state = .sleeping)
    (hp : (s.proc c).parent = some p) : (s.proc j).chan ≠ some (.proc p) := by
  rw [wakeParent, hp] at h
  exact (Proc.wake_sleeping h).2

theorem abandon_sleeping {c j : Fin NPROC} (h : ((abandon s c).proc j).state = .sleeping)
    (hz : ∃ i, (s.proc i).parent = some c ∧ (s.proc i).state = .zombie) :
    (s.proc j).chan ≠ some (.proc s.initproc) := by
  have hhas : hasZombieChild s c = true := by
    obtain ⟨i, hi⟩ := hz
    rw [hasZombieChild, Option.isSome_iff_ne_none]
    intro hnone
    exact of_decide_eq_false (firstFin_none hnone i) hi
  rw [abandon, if_pos hhas] at h
  have := (Proc.wake_sleeping h).2
  rwa [reparent_proc] at this

theorem exitLife_spec (s : Sys) (c : Fin NPROC) : ExitLife s c (exitLife s c) := by
  have h₁ := wakeParent_woken s c
  have h₂ := abandon_woken (wakeParent s c) c
  have hg : SameGlobals s (exitLife s c) :=
    ⟨h₂.globals.nextpid.trans h₁.globals.nextpid, h₂.globals.ticks.trans h₁.globals.ticks,
      h₂.globals.initproc.trans h₁.globals.initproc⟩
  have hscan : (exitLife s c).scan = s.scan + 1 := by
    change (abandon (wakeParent s c) c).scan + 1 = s.scan + 1
    rw [h₂.same]
    change (wakeParent s c).scan + 1 = s.scan + 1
    rw [h₁.same]
  have hslot : ∀ j, (exitLife s c).proc j = { (abandon (wakeParent s c) c).proc j with
      state := if j = c then .zombie else ((abandon (wakeParent s c) c).proc j).state } := by
    intro j
    simp only [exitLife, Sys.leave, Sys.set, upd_apply]
    split
    case isTrue h => rw [h]
    case isFalse => rfl
  -- a process that sleeps now slept in both states before
  have hsleep : ∀ j, ((exitLife s c).proc j).state = .sleeping →
      ((abandon (wakeParent s c) c).proc j).state = .sleeping ∧
        ((wakeParent s c).proc j).state = .sleeping := by
    intro j hj
    rw [hslot] at hj
    dsimp only at hj
    split at hj
    case isTrue => cases hj
    case isFalse =>
      refine ⟨hj, ?_⟩
      have := h₂.state j
      rw [hj, reparent_proc] at this
      rcases this with h | ⟨-, h⟩
      · exact h.symm
      · cases h
  have hproc : ∀ j, (abandon (wakeParent s c) c).proc j = { s.proc j with
      state := ((abandon (wakeParent s c) c).proc j).state
      parent := if (s.proc j).parent = some c then some s.initproc else (s.proc j).parent } := by
    intro j
    have e₂ := h₂.slot j
    rw [reparent_proc, h₁.globals.initproc] at e₂
    have e₁ := h₁.slot j
    rw [e₂, e₁]
  refine ⟨rfl, hscan, hg, fun j => ?_, ?_, fun j hj => ?_, fun p hp hsl => ?_, fun hz hsl => ?_⟩
  · rw [hslot, hproc]
  · rw [hslot]
    exact if_pos rfl
  · rw [hslot]
    dsimp only
    rw [if_neg hj]
    have hst₁ := h₁.state j
    have hst₂ := h₂.state j
    rw [reparent_proc] at hst₂
    dsimp only at hst₂
    grind
  · exact wakeParent_sleeping (hsleep p hsl).2 hp
  · have hz' : ∃ i, ((wakeParent s c).proc i).parent = some c ∧
        ((wakeParent s c).proc i).state = .zombie := by
      obtain ⟨i, hpar, hst⟩ := hz
      refine ⟨i, ?_, ?_⟩
      · rw [h₁.slot]
        exact hpar
      · have := h₁.state i
        rw [hst] at this
        exact this.resolve_right fun h => by cases h.1
    have hab := abandon_sleeping (hsleep _ hsl).1 hz'
    rw [h₁.slot, h₁.globals.initproc] at hab
    exact hab

/-! ## Inversion -/

inductive LifeStep (pol : Policy) (s : Sys) : Event → Sys → Prop where
  | step {e : Event} {t : Sys} (h : Step pol s e t) (hstep : step pol s e = some t)
      (hx : e ≠ .exit) (hsleep : ∀ p, e ≠ .sleep (.proc p)) : LifeStep pol s e t
  | skip {c : Fin NPROC} {e : Event} (hcur : s.cur = some c) (he : e = .runtime ∨ e = .waittime) :
      LifeStep pol s e s
  | turn {c : Fin NPROC} (hcur : s.cur = some c) :
      LifeStep pol s .turntime (s.set c fun p => { p with pidtimes := p.pidtimes + 1 })
  | exit {c : Fin NPROC} (hcur : s.cur = some c) (hpc : (s.proc c).pc = .exiting) :
      LifeStep pol s .exit (exitLife s c)

theorem lifeStep_cases (h : lifeStep pol s e = some t) : LifeStep pol s e t := by
  rw [lifeStep.eq_def] at h
  split at h
  case h_1 hcur =>
    obtain ⟨hc, rfl⟩ := Option.ite_none_right_eq_some.mp h |>.imp_right Option.some.inj
    exact .exit hcur hc.2
  case h_2 hcur =>
    obtain ⟨hc, rfl⟩ := Option.ite_none_right_eq_some.mp h |>.imp_right Option.some.inj
    exact .skip hcur (.inl rfl)
  case h_3 hcur =>
    obtain ⟨hc, rfl⟩ := Option.ite_none_right_eq_some.mp h |>.imp_right Option.some.inj
    exact .skip hcur (.inr rfl)
  case h_4 hcur =>
    obtain ⟨hc, rfl⟩ := Option.ite_none_right_eq_some.mp h |>.imp_right Option.some.inj
    exact .turn hcur
  case h_5 => cases h
  case h_6 hsleep hexit _ _ _ =>
    refine .step (step_cases h) h ?_ hsleep
    rintro rfl
    obtain ⟨c, hcur, -⟩ := step_exit h
    exact hexit c rfl hcur

theorem lifeStep_kill {pid : Int32} (h : lifeStep pol s (.kill pid) = some t) : t = kill s pid := by
  change step pol s (.kill pid) = some t at h
  rw [step.eq_def] at h
  cases hcur : s.cur with
  | none =>
    rw [hcur] at h
    cases h
  | some c =>
    rw [hcur] at h
    dsimp only at h
    split at h
    case isTrue => cases h
    case isFalse =>
      cases hpc : (s.proc c).pc <;> rw [procStep.eq_def, hpc] at h <;> cases h
      case kernel.refl => rfl

/-- The steps, by what they do to the family. -/
inductive LifeKind (s : Sys) : Event → Sys → Prop where
  | still {e : Event} {t : Sys} (h : Still s t) (hf : ∀ ok, e ≠ .forkDone ok)
      (hx : e ≠ .exit) : LifeKind s e t
  | turn {c : Fin NPROC} (hcur : s.cur = some c) :
      LifeKind s .turntime (s.set c fun p => { p with pidtimes := p.pidtimes + 1 })
  | alloc {c : Fin NPROC} (hcur : s.cur = some c) (hkernel : (s.proc c).pc = .kernel)
      (i : Fin NPROC) (hfree : (s.proc i).state = .unused) :
      LifeKind s .allocproc
        { (s.set i fun p => p.alloc s.nextpid s.ticks.toInt32).set c fun p =>
            { p with pc := .forking i } with
          nextpid := s.nextpid + 1 }
  | forked {c i : Fin NPROC} (hcur : s.cur = some c) (hpc : (s.proc c).pc = .forking i)
      (ok : Bool) : LifeKind s (.forkDone ok) (forkDone s c i ok)
  | reap {c : Fin NPROC} (hcur : s.cur = some c) (i : Fin NPROC)
      (hparent : (s.proc i).parent = some c) (hzombie : (s.proc i).state = .zombie) :
      LifeKind s .wait (s.set i fun p => { p with
        pid := 0, parent := none, killed := false, ctime := 0, state := .unused })
  | exit {c : Fin NPROC} (hcur : s.cur = some c) (hpc : (s.proc c).pc = .exiting) :
      LifeKind s .exit (exitLife s c)

theorem LifeStep.kind (h : LifeStep pol s e t) (hone : OneRunning s) : LifeKind s e t := by
  cases h with
  | step h hstep hx hsleep =>
    cases h.kind hone with
    | still h _ _ hf => exact .still h hf hx
    | turn hcur => exact .turn hcur
    | alloc hcur hkernel i hfree hfirst => exact .alloc hcur hkernel i hfree
    | forked hcur hpc ok => exact .forked hcur hpc ok
    | reap hcur i hparent hzombie => exact .reap hcur i hparent hzombie
    | exit => exact absurd rfl hx
  | skip hcur he =>
    refine .still (.refl s) ?_ ?_
    · rintro ok rfl
      simp at he
    · rintro rfl
      simp at he
  | turn hcur => exact .turn hcur
  | exit hcur hpc => exact .exit hcur hpc

theorem Family.life (h : Family s) (hk : LifeKind s e t) : Family t := by
  cases hk with
  | still hs _ _ => exact h.still hs
  | turn hcur => exact h.turn _
  | alloc hcur hkernel i hfree =>
    refine h.alloc hcur hfree rfl rfl (fun j => ?_) (fun j => ?_) (fun j => ?_)
    all_goals
      simp only [Sys.set, upd_apply, Proc.alloc]
      grind
  | forked hcur hpc ok => exact h.forked hcur hpc ok
  | reap hcur i hparent hzombie =>
    refine h.reap hzombie rfl rfl (fun j => ?_) (fun j => ?_) (fun j => ?_)
    all_goals
      simp only [Sys.set, upd_apply]
      grind
  | @exit c hcur hpc =>
    have hx := exitLife_spec s c
    refine h.exit_slots hcur hpc hx.cur hx.globals.initproc (fun j => ?_) hx.zombie hx.state
      (fun j => ?_)
    · rw [hx.slot]
    · rw [hx.slot]

theorem life_family (h : lifeStep pol s e = some t) (hf : Family s) : LifeKind s e t ∧ Family t := by
  have hk := (lifeStep_cases h).kind hf.one
  exact ⟨hk, hf.life hk⟩

end Xv6.Sched
