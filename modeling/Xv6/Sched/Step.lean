import Xv6.Sched.Machine

/-!
# What a step can do

`Step` lists the steps of the machine by what they do to the table, with the
tests that lead to each of them. Every step of `step` is one of them
(`step_cases`), and the proofs about runs go by its cases.
-/

namespace Xv6.Sched

open Table Scan

/-- The state in which `trap()` leaves a process it makes exit. -/
def forced (s : Sys) (c : Fin NPROC) : Sys :=
  s.set c fun p => { p with
    turnaroundT := s.ticks.toInt32 - p.ctime
    waitingT := s.ticks.toInt32 - p.ctime - p.runningT
    pc := .exiting }

/-- `wait()` finds children of `c` and none of them dead. -/
def WaitSleeps (s : Sys) (c : Fin NPROC) : Prop :=
  (∃ i, (s.proc i).parent = some c) ∧ (s.proc c).killed = false ∧
    ∀ i, (s.proc i).parent = some c → (s.proc i).state ≠ .zombie

instance (s : Sys) (c : Fin NPROC) : Decidable (WaitSleeps s c) :=
  inferInstanceAs (Decidable (_ ∧ _ ∧ _))

inductive Step (pol : Policy) (s : Sys) : Event → Sys → Prop where
  | pass (hcur : s.cur = none) (n : Nat) : Step pol s .scan { s with scan := n }
  | dispatch (hcur : s.cur = none) (p : Fin NPROC) (hscan : s.scan = p.val)
      (hrun : (s.proc p).state = .runnable) : Step pol s .scan (dispatch s p)
  | idle (hcur : s.cur = none) {no : TrapNo} (hno : no ≠ .fault) :
      Step pol s (.idle no) (handle s none no)
  | trap {c : Fin NPROC} (hcur : s.cur = some c) {no : TrapNo}
      (hstay : ¬ (((handle s (some c) no).proc c).state = .running ∧ no = .timer)) :
      Step pol s (.trap no) (handle s (some c) no)
  | tick {c : Fin NPROC} (hcur : s.cur = some c)
      (hlive : ¬ ((s.proc c).killed = true ∧ (s.proc c).pc = .user)) :
      Step pol s (.trap .timer) (onTick pol (handle s (some c) .timer) c)
  | forced {c : Fin NPROC} (hcur : s.cur = some c) {no : TrapNo} (hinit : c ≠ s.initproc)
      (hkilled : no = .fault ∨ (s.proc c).killed = true) (huser : (s.proc c).pc = .user) :
      Step pol s (.trap no) (forced (handle s (some c) no) c)
  | resume {c : Fin NPROC} (hcur : s.cur = some c) (hy : (s.proc c).yielded = true) :
      Step pol s .resume (s.set c fun p => { p with yielded := false })
  | resumeForced {c : Fin NPROC} (hcur : s.cur = some c) (hy : (s.proc c).yielded = true)
      (hinit : c ≠ s.initproc)
      (hkilled : (s.proc c).killed = true) (huser : (s.proc c).pc = .user) :
      Step pol s .resume (forced (s.set c fun p => { p with yielded := false }) c)
  | enter {c : Fin NPROC} (hcur : s.cur = some c) (huser : (s.proc c).pc = .user) :
      Step pol s .sysEntry (s.set c fun p => { p with pc := .kernel })
  | leave {c : Fin NPROC} (hcur : s.cur = some c) (hkernel : (s.proc c).pc = .kernel) :
      Step pol s .sysReturn (s.set c fun p => { p with pc := .user })
  | quit {c : Fin NPROC} {e : Event} (hcur : s.cur = some c) (hinit : c ≠ s.initproc)
      (he : e = .sysExit ∨ (e = .sysEntry ∨ e = .sysReturn) ∧ (s.proc c).killed = true)
      (hpc : (s.proc c).pc = .user ∨ (s.proc c).pc = .kernel) :
      Step pol s e (s.set c fun p => { p with pc := .exiting })
  | alloc {c : Fin NPROC} (hcur : s.cur = some c) (hkernel : (s.proc c).pc = .kernel)
      (i : Fin NPROC) (hfree : (s.proc i).state = .unused)
      (hfirst : firstFin (fun i => decide ((s.proc i).state = .unused)) = some i) :
      Step pol s .allocproc
        { (s.set i fun p => p.alloc s.nextpid s.ticks.toInt32).set c fun p =>
            { p with pc := .forking i } with
          nextpid := s.nextpid + 1 }
  | forked {c i : Fin NPROC} (hcur : s.cur = some c) (hpc : (s.proc c).pc = .forking i)
      (ok : Bool) : Step pol s (.forkDone ok) (forkDone s c i ok)
  | reap {c : Fin NPROC} (hcur : s.cur = some c) (i : Fin NPROC)
      (hparent : (s.proc i).parent = some c) (hzombie : (s.proc i).state = .zombie) :
      Step pol s .wait (s.set i fun p => { p with
        pid := 0, parent := none, killed := false, ctime := 0, state := .unused })
  | killed {c : Fin NPROC} (hcur : s.cur = some c) (pid : Int32) (i : Fin NPROC) :
      Step pol s (.kill pid) (s.set i fun p => { p with
        killed := true, state := if p.state = .sleeping then .runnable else p.state })
  | sleep {c : Fin NPROC} {e : Event} (hcur : s.cur = some c) {chan : Chan}
      (he : e = .wait ∧ WaitSleeps s c ∨ e = .sleep chan) : Step pol s e (sleep s c chan)
  | wakeup {c : Fin NPROC} (hcur : s.cur = some c) (chan : Chan) :
      Step pol s (.wakeup chan) (wakeup1 s chan)
  | skip {c : Fin NPROC} {e : Event} (hcur : s.cur = some c)
      (he : e = .allocproc ∨ e = .wait ∨ (∃ pid, e = .kill pid) ∨ e = .runtime ∨ e = .waittime) :
      Step pol s e s
  | turn {c : Fin NPROC} (hcur : s.cur = some c) :
      Step pol s .turntime (s.set c fun p => { p with pidtimes := p.pidtimes + 1 })
  | exit {c : Fin NPROC} {t : Sys} (hcur : s.cur = some c) (hpc : (s.proc c).pc = .exiting)
      (ht : exitEnd s c = some t) : Step pol s .exit t

/-! ## Waking -/

theorem Proc.wake_eq (p : Proc) (chan : Chan) : p.wake chan = { p with state := (p.wake chan).state } := by
  rw [Proc.wake]
  split <;> rfl

theorem Proc.wake_state (p : Proc) (chan : Chan) : (p.wake chan).state = p.state ∨
      p.state = .sleeping ∧ (p.wake chan).state = .runnable := by
  rw [Proc.wake]
  split
  case isTrue h => exact .inr ⟨h.1, rfl⟩
  case isFalse => exact .inl rfl

theorem handle_killed (s : Sys) (c : Fin NPROC) (no : TrapNo) :
    ((handle s (some c) no).proc c).killed = true ↔ no = .fault ∨ (s.proc c).killed = true := by
  cases no with
  | timer => simp only [handle, wakeup1, reduceCtorEq, false_or]; rw [Proc.wake_eq]
  | device n => simp only [handle, wakeup1, reduceCtorEq, false_or]; rw [Proc.wake_eq]
  | fault => simp [handle, Sys.set]

theorem handle_pc (s : Sys) (c : Fin NPROC) (no : TrapNo) :
    ((handle s (some c) no).proc c).pc = (s.proc c).pc := by
  cases no with
  | timer => simp only [handle, wakeup1]; rw [Proc.wake_eq]
  | device n => simp only [handle, wakeup1]; rw [Proc.wake_eq]
  | fault => simp [handle, Sys.set]

theorem handle_initproc (s : Sys) (c : Option (Fin NPROC)) (no : TrapNo) :
    (handle s c no).initproc = s.initproc := by
  cases no with
  | timer => rfl
  | device n => rfl
  | fault => cases c <;> rfl

/-! ## Inversion -/

variable {pol : Policy} {s t : Sys}

theorem exitBegin_some {c : Fin NPROC} (h : exitBegin s c = some t) :
    c ≠ s.initproc ∧ t = s.set c fun p => { p with pc := .exiting } := by
  rw [exitBegin] at h
  split at h
  case isTrue => cases h
  case isFalse hc => exact ⟨hc, (Option.some.inj h).symm⟩

theorem forceExit_some {c : Fin NPROC} (h : forceExit s c = some t) : c ≠ s.initproc ∧ t = forced s c := by
  obtain ⟨hc, ht⟩ := exitBegin_some h
  refine ⟨hc, ht.trans ?_⟩
  simp [forced, Sys.set]

theorem trap_cases {c : Fin NPROC} {no : TrapNo} (hcur : s.cur = some c) (h : trap pol s c no = some t) :
    Step pol s (.trap no) t := by
  simp only [trap, handle_killed, handle_pc] at h
  split at h
  case isTrue hk =>
    obtain ⟨hc, rfl⟩ := forceExit_some h
    rw [handle_initproc] at hc
    exact .forced hcur hc hk.1 hk.2
  case isFalse hk =>
    split at h
    case isTrue hr =>
      cases h
      obtain ⟨_, rfl⟩ := hr
      exact .tick hcur fun hl => hk ⟨.inr hl.1, hl.2⟩
    case isFalse hr => cases h; exact .trap hcur hr

theorem wait_cases {c : Fin NPROC} (hcur : s.cur = some c) : Step pol s .wait (wait s c) := by
  rw [wait]
  split
  case h_1 i hi =>
    have hz := of_decide_eq_true (firstFin_some hi)
    exact .reap hcur i hz.1 hz.2
  case h_2 hz =>
    split
    case isTrue => exact .skip hcur (.inr (.inl rfl))
    case isFalse hw =>
      rw [not_or, Bool.not_eq_true, Bool.not_eq_true] at hw
      obtain ⟨i, hi⟩ := Option.isSome_iff_exists.mp (Option.isNone_eq_false_iff.mp hw.1)
      refine .sleep hcur (.inl ⟨rfl, ⟨i, of_decide_eq_true (firstFin_some hi)⟩, hw.2, ?_⟩)
      intro j hj hjz
      exact of_decide_eq_false (firstFin_none hz j) ⟨hj, hjz⟩

theorem kill_cases {c : Fin NPROC} (hcur : s.cur = some c) (pid : Int32) :
    Step pol s (.kill pid) (kill s pid) := by
  rw [kill]
  split
  case h_1 i _ => exact .killed hcur pid i
  case h_2 => exact .skip hcur (.inr (.inr (.inl ⟨pid, rfl⟩)))

theorem alloc_cases {c : Fin NPROC} (hcur : s.cur = some c) (hpc : (s.proc c).pc = .kernel) :
    Step pol s .allocproc (allocproc s c) := by
  rw [allocproc]
  split
  case h_1 i hi => exact .alloc hcur hpc i (of_decide_eq_true (firstFin_some hi)) hi
  case h_2 => exact .skip hcur (.inl rfl)

theorem choose_eq (pol : Policy) (s : Sys) (p : Fin NPROC) : choose pol s p = p := by
  cases pol with
  | default => rfl
  | frr => rfl
  | fcfs =>
    simp only [choose]
    split <;> rfl

theorem scan_cases (hcur : s.cur = none) : Step pol s .scan (scanStep pol s) := by
  rw [scanStep]
  split
  case isTrue h =>
    split
    case isTrue hr =>
      rw [choose_eq]
      exact .dispatch hcur ⟨s.scan, h⟩ rfl hr
    case isFalse => exact .pass hcur (s.scan + 1)
  case isFalse => exact .pass hcur 0

theorem resume_cases {c : Fin NPROC} (hcur : s.cur = some c) (hy : (s.proc c).yielded = true)
    (h : resume s c = some t) : Step pol s .resume t := by
  simp only [resume, Sys.set, upd_same] at h
  split at h
  case isTrue hk =>
    obtain ⟨hc, rfl⟩ := forceExit_some h
    exact .resumeForced hcur hy hc hk.1 hk.2
  case isFalse =>
    cases h
    exact .resume hcur hy

theorem procStep_cases {c : Fin NPROC} {e : Event} (hcur : s.cur = some c)
    (h : procStep pol s c e = some t) : Step pol s e t := by
  -- one case for each place the process can be at and each event, most of which do not go together
  cases hpc : (s.proc c).pc <;> rw [procStep.eq_def, hpc] at h <;> cases e
  case user.trap no => cases no <;> exact trap_cases hcur h
  case kernel.trap no | forking.trap no | exiting.trap no =>
    cases no
    case fault => cases h
    all_goals exact trap_cases hcur h
  case user.sysEntry =>
    change (if _ then _ else _) = _ at h
    split at h
    case isTrue hk =>
      obtain ⟨hc, rfl⟩ := exitBegin_some h
      exact .quit hcur hc (.inr ⟨.inl rfl, hk⟩) (.inl hpc)
    case isFalse => cases h; exact .enter hcur hpc
  case kernel.sysReturn =>
    change (if _ then _ else _) = _ at h
    split at h
    case isTrue hk =>
      obtain ⟨hc, rfl⟩ := exitBegin_some h
      exact .quit hcur hc (.inr ⟨.inr rfl, hk⟩) (.inr hpc)
    case isFalse => cases h; exact .leave hcur hpc
  case kernel.sysExit =>
    obtain ⟨hc, rfl⟩ := exitBegin_some h
    exact .quit hcur hc (.inl rfl) (.inr hpc)
  case kernel.allocproc => cases h; exact alloc_cases hcur hpc
  case forking.forkDone => cases h; exact .forked hcur hpc _
  case kernel.wait => cases h; exact wait_cases hcur
  case kernel.kill => cases h; exact kill_cases hcur _
  case kernel.sleep | exiting.sleep => cases h; exact .sleep hcur (.inr rfl)
  case kernel.wakeup | exiting.wakeup => cases h; exact .wakeup hcur _
  case kernel.runtime =>
    obtain ⟨v, _, rfl⟩ := Option.map_eq_some_iff.mp h
    exact .skip hcur (.inr (.inr (.inr (.inl rfl))))
  case kernel.waittime =>
    obtain ⟨v, _, rfl⟩ := Option.map_eq_some_iff.mp h
    exact .skip hcur (.inr (.inr (.inr (.inr rfl))))
  case kernel.turntime =>
    obtain ⟨v, _, rfl⟩ := Option.map_eq_some_iff.mp h
    exact .turn hcur
  case exiting.exit => exact .exit hcur hpc h
  all_goals cases h

theorem step_cases {e : Event} (h : step pol s e = some t) : Step pol s e t := by
  rw [step.eq_def] at h
  split at h
  case h_1 hcur => cases h; exact scan_cases hcur
  case h_2 => cases h
  case h_3 hno hcur =>
    split at h
    case isTrue => cases h; exact .idle hcur hno
    case isFalse => cases h
  case h_4 hcur =>
    split at h
    case isTrue hy => exact resume_cases hcur hy h
    case isFalse => cases h
  case h_5 hcur =>
    split at h
    case isTrue => cases h
    case isFalse => exact procStep_cases hcur h
  case h_6 => cases h

/-! ## Exiting -/

/-- What `exit()` of `c` makes of the slot `j`: the exiting process is a zombie,
others may be woken, its children go to `init`, and its parent gets its times. -/
structure ExitSlot (s : Sys) (c j : Fin NPROC) (q : Proc) : Prop where
  same : q = { s.proc j with
    state := q.state, parent := q.parent
    pwaitingT := q.pwaitingT, prunningT := q.prunningT, pturnaroundT := q.pturnaroundT }
  zombie : j = c → q.state = .zombie
  state : j ≠ c → q.state = (s.proc j).state ∨ (s.proc j).state = .sleeping ∧ q.state = .runnable
  parent : q.parent = if (s.proc j).parent = some c then some s.initproc else (s.proc j).parent
  times : (s.proc c).parent ≠ some j → q.pwaitingT = (s.proc j).pwaitingT ∧
    q.prunningT = (s.proc j).prunningT ∧ q.pturnaroundT = (s.proc j).pturnaroundT
  record : (s.proc c).parent = some j → ∃ k, timesIndex (exitIndex s c j) = some k ∧
    q.pwaitingT = upd (s.proc j).pwaitingT k (s.proc c).waitingT ∧
    q.prunningT = upd (s.proc j).prunningT k (s.proc c).runningT ∧
    q.pturnaroundT = upd (s.proc j).pturnaroundT k (s.proc c).turnaroundT

theorem recordTimes_spec {c : Fin NPROC} (h : recordTimes s c = some t) :
    ((s.proc c).parent = none ∧ t = s) ∨
    ∃ p k, (s.proc c).parent = some p ∧ timesIndex (exitIndex s c p) = some k ∧
      t = s.set p fun q => q.record (s.proc c) k := by
  rw [recordTimes] at h
  split at h
  case h_1 hp => cases h; exact .inl ⟨hp, rfl⟩
  case h_2 p hp =>
    obtain ⟨k, hk, rfl⟩ := Option.map_eq_some_iff.mp h
    exact .inr ⟨p, k, hp, hk, rfl⟩

/-- The processes of `t` are those of `s`, some of them woken. -/
structure Woken (s t : Sys) : Prop where
  same : t = { s with proc := t.proc }
  slot : ∀ j, t.proc j = { s.proc j with state := (t.proc j).state }
  state : ∀ j, (t.proc j).state = (s.proc j).state ∨
    (s.proc j).state = .sleeping ∧ (t.proc j).state = .runnable

theorem Woken.refl (s : Sys) : Woken s s := ⟨rfl, fun _ => rfl, fun _ => .inl rfl⟩

theorem wakeup1_woken (s : Sys) (chan : Chan) : Woken s (wakeup1 s chan) :=
  ⟨rfl, fun j => (s.proc j).wake_eq chan, fun j => (s.proc j).wake_state chan⟩

theorem step_exit (h : step pol s .exit = some t) :
    ∃ c, s.cur = some c ∧ (s.proc c).pc = .exiting ∧ exitEnd s c = some t := by
  cases step_cases h with
  | exit hcur hpc ht => exact ⟨_, hcur, hpc, ht⟩
  | quit hcur hinit he hpc => simp at he
  | sleep hcur he => simp at he
  | skip hcur he => simp at he

/-- `t` differs from `s` at most in the table, the running process and the scan. -/
structure SameGlobals (s t : Sys) : Prop where
  nextpid : t.nextpid = s.nextpid
  ticks : t.ticks = s.ticks
  initproc : t.initproc = s.initproc

theorem Woken.globals (h : Woken s t) : SameGlobals s t := by
  rw [h.same]
  exact ⟨rfl, rfl, rfl⟩

theorem reparent_proc (s : Sys) (c j : Fin NPROC) : (reparent s c).proc j = { s.proc j with
      parent := if (s.proc j).parent = some c then some s.initproc else (s.proc j).parent } := by
  simp only [reparent]
  split <;> rfl


theorem recordTimes_slot {c : Fin NPROC} (h : recordTimes s c = some t) (j : Fin NPROC) :
    t.proc j = { s.proc j with
      pwaitingT := (t.proc j).pwaitingT
      prunningT := (t.proc j).prunningT
      pturnaroundT := (t.proc j).pturnaroundT } := by
  obtain ⟨_, rfl⟩ | ⟨p, k, _, _, rfl⟩ := recordTimes_spec h
  · rfl
  · simp only [Sys.set, upd_apply]
    split
    case isTrue hj => rw [hj]; rfl
    case isFalse => rfl

theorem recordTimes_initproc {c : Fin NPROC} (h : recordTimes s c = some t) : t.initproc = s.initproc := by
  obtain ⟨_, rfl⟩ | ⟨p, k, _, _, rfl⟩ := recordTimes_spec h <;> rfl

theorem recordTimes_times {c j : Fin NPROC} (h : recordTimes s c = some t)
    (hj : (s.proc c).parent ≠ some j) : t.proc j = s.proc j := by
  obtain ⟨_, rfl⟩ | ⟨p, k, hp, _, rfl⟩ := recordTimes_spec h
  · rfl
  · exact upd_ne _ _ fun h => hj (h ▸ hp)

theorem recordTimes_record {c j : Fin NPROC} (h : recordTimes s c = some t)
    (hj : (s.proc c).parent = some j) : ∃ k, timesIndex (exitIndex s c j) = some k ∧
      t.proc j = (s.proc j).record (s.proc c) k := by
  obtain ⟨hp, _⟩ | ⟨p, k, hp, hk, rfl⟩ := recordTimes_spec h
  · rw [hj] at hp; cases hp
  · rw [hj] at hp
    cases hp
    exact ⟨k, hk, upd_same _ _ _⟩

theorem exitTail_slot {s₁ s₂ s₄ : Sys} {c : Fin NPROC} (h₁ : Woken s s₁)
    (h₂ : recordTimes s₁ c = some s₂) (h₄ : Woken (reparent s₂ c) s₄) (j : Fin NPROC) :
    ExitSlot s c j ((s₄.set c fun p => { p with state := .zombie }).leave.proc j) := by
  have e₁ := h₁.slot
  have e₂ := recordTimes_slot h₂ j
  have e₄ := h₄.slot j
  rw [reparent_proc, recordTimes_initproc h₂, h₁.globals.initproc] at e₄
  have hst₁ := h₁.state j
  have hst₄ := h₄.state j
  rw [reparent_proc] at hst₄
  have hq : (s₄.set c fun p => { p with state := .zombie }).leave.proc j =
      { s₄.proc j with state := if j = c then .zombie else (s₄.proc j).state } := by
    simp only [Sys.leave, Sys.set, upd_apply]
    split
    case isTrue h => rw [h]
    case isFalse => rfl
  have hc : s₁.proc c = { s.proc c with state := (s₁.proc c).state } := e₁ c
  have hpc : (s₁.proc c).parent = (s.proc c).parent := by rw [hc]
  rw [hq]
  refine ⟨?_, fun h => if_pos h, fun h => ?_, ?_, fun hne => ?_, fun heq => ?_⟩
  · rw [e₄, e₂, e₁ j]
  · rw [if_neg h]
    rw [e₂] at hst₄
    grind
  · rw [e₄, e₂, e₁ j]
  · have := recordTimes_times h₂ (by rwa [hpc])
    rw [e₄, this, e₁ j]
    exact ⟨rfl, rfl, rfl⟩
  · obtain ⟨k, hk, hrec⟩ := recordTimes_record h₂ (hpc.trans heq)
    have hidx : exitIndex s₁ c j = exitIndex s c j := by
      rw [exitIndex, hc, e₁ j]
      rfl
    rw [hidx] at hk
    refine ⟨k, hk, ?_⟩
    rw [e₄, hrec, hc, e₁ j]
    exact ⟨rfl, rfl, rfl⟩

theorem wakeParent_woken (s : Sys) (c : Fin NPROC) : Woken s (wakeParent s c) := by
  rw [wakeParent]
  cases (s.proc c).parent with
  | none => exact .refl s
  | some p => exact wakeup1_woken s _

theorem abandon_woken (s : Sys) (c : Fin NPROC) : Woken (reparent s c) (abandon s c) := by
  rw [abandon]
  split
  · exact wakeup1_woken _ _
  · exact .refl _

theorem exitEnd_spec {c : Fin NPROC} (h : exitEnd s c = some t) :
    t.cur = none ∧ SameGlobals s t ∧ ∀ j, ExitSlot s c j (t.proc j) := by
  obtain ⟨s₂, h₂, rfl⟩ := Option.map_eq_some_iff.mp h
  have h₁ := wakeParent_woken s c
  have h₄ := abandon_woken s₂ c
  refine ⟨rfl, ?_, exitTail_slot h₁ h₂ h₄⟩
  have hg₄ := h₄.globals
  have hg₁ := h₁.globals
  obtain ⟨_, rfl⟩ | ⟨p, k, _, _, rfl⟩ := recordTimes_spec h₂
  · exact ⟨hg₄.nextpid.trans hg₁.nextpid, hg₄.ticks.trans hg₁.ticks, hg₄.initproc.trans hg₁.initproc⟩
  · exact ⟨hg₄.nextpid.trans hg₁.nextpid, hg₄.ticks.trans hg₁.ticks, hg₄.initproc.trans hg₁.initproc⟩

/-! ## Fields that a step leaves alone -/

/-- Every process has the same `f` in `s` and `t`. -/
def Agree {α : Type} (f : Proc → α) (s t : Sys) : Prop := ∀ i, f (t.proc i) = f (s.proc i)

section

variable {α : Type} {f : Proc → α} {u : Sys} {c i : Fin NPROC}

theorem Agree.trans (h : Agree f s t) (h' : Agree f t u) : Agree f s u := fun i =>
  (h' i).trans (h i)

theorem set_agree {g : Proc → Proc} (hf : ∀ p, f (g p) = f p) : Agree f s (s.set c g) := by
  intro i
  simp only [Sys.set, upd_apply]
  split <;> simp [*]

theorem Woken.agree (hw : Woken s t) (hf : ∀ p st, f { p with state := st } = f p) :
    Agree f s t := fun i => by rw [hw.slot i, hf]

theorem handle_agree (hf : ∀ p st, f { p with state := st } = f p)
    (hk : ∀ p, f { p with killed := true } = f p) (c : Option (Fin NPROC)) (no : TrapNo) :
    Agree f s (handle s c no) := by
  cases no with
  | timer =>
    intro i
    exact (wakeup1_woken { s with ticks := s.ticks + 1 } .ticks).agree hf i
  | device n => exact (wakeup1_woken s (.other n)).agree hf
  | fault =>
    cases c with
    | none => exact fun _ => rfl
    | some c => exact set_agree hk

theorem forced_agree (hf : ∀ p a b, f { p with turnaroundT := a, waitingT := b, pc := .exiting } = f p) :
    Agree f s (forced s c) := set_agree fun p => hf p _ _

theorem sleep_agree {chan : Chan} (hf : ∀ p, f { p with state := .sleeping, chan := some chan } = f p) :
    Agree f s (sleep s c chan) := set_agree hf

theorem alloc_agree (ha : ∀ p a b, f (p.alloc a b) = f p) (hf : ∀ p, f { p with pc := .forking i } = f p) :
    Agree f s { (s.set i fun p => p.alloc s.nextpid s.ticks.toInt32).set c fun p =>
      { p with pc := .forking i } with nextpid := s.nextpid + 1 } := by
  have h : Agree f s (s.set i fun p => p.alloc s.nextpid s.ticks.toInt32) := set_agree fun p => ha p _ _
  exact h.trans (set_agree hf)

theorem forkDone_agree (hr : ∀ p, f { p with
      state := .runnable, parent := some c, pc := .user, yielded := false } = f p)
    (hu : ∀ p, f { p with state := .unused } = f p) (hk : ∀ p, f { p with pc := .kernel } = f p)
    (ok : Bool) : Agree f s (forkDone s c i ok) := by
  have h : Agree f s (s.set i fun p =>
      if ok then { p with state := .runnable, parent := some c, pc := .user, yielded := false }
      else { p with state := .unused }) := set_agree fun p => by split <;> simp only [hr, hu]
  exact h.trans (set_agree hk)

end

end Xv6.Sched
