import Xv6.Sched.Clock

/-!
# The times of a process at exit

`trap()` stores the turnaround and waiting times of a process only where it finds
it killed in user space on a trap that is not a system call. On the other ways
into `exit()` the fields keep what they held (`exit_without_times`), which may stem
from the process that had the slot before. Under FRR the tick that ends a quantum
does not count as running time.
-/

namespace Xv6.Sched

open Table Trans

variable {pol : Policy} {s t : Sys} {e : Event}

/-- For each slot, the timer interrupts taken while its process was `RUNNING`, since it
was created. -/
abbrev Ran : Type := Fin NPROC → Nat

/-- A new process starts from zero. -/
def noteRan (s : Sys) (e : Event) (t : Sys) (r : Ran) : Ran := fun i =>
  if (s.proc i).state = .unused ∧ (t.proc i).state = .embryo then 0
  else if e = .trap .timer ∧ s.cur = some i ∧ (s.proc i).state = .running then r i + 1
  else r i

/-- The times of a process that has run for `r` ticks, when the clock shows `now`. -/
structure TimesRight (now : UInt32) (r : Nat) (p : Proc) : Prop where
  running : p.runningT = Int32.ofNat r
  turnaround : p.turnaroundT = now.toInt32 - p.ctime
  waiting : p.waitingT = p.turnaroundT - p.runningT

/-- A child takes a tick and calls `exit()`. -/
def childExits : List Event :=
  [.scan, .allocproc, .forkDone true, .wait, .scan, .trap .timer, .sysEntry, .sysExit]

/-- Processes exit only when `trap()` finds them killed in user space on a trap that is
neither a system call nor a tick. No tick comes while a process is on its way out,
and under FRR none ends a quantum. -/
def Orderly (pol : Policy) (s : Sys) (e : Event) : Prop :=
  (∀ c, s.cur = some c →
    e ≠ .sysExit ∧
    (e = .sysEntry ∨ e = .sysReturn → (s.proc c).killed = false) ∧
    (e = .trap .timer → ¬ ((s.proc c).killed = true ∧ (s.proc c).pc = .user)) ∧
    (pol = .frr → e = .trap .timer → ¬ QUANTA ≤ (s.proc c).slot + 1)) ∧
  (e = .trap .timer ∨ e = .idle .timer → ∀ i, (s.proc i).state.Alive → (s.proc i).pc ≠ .exiting)

instance (pol : Policy) (s : Sys) (e : Event) : Decidable (Orderly pol s e) :=
  inferInstanceAs (Decidable (_ ∧ _))

/-- The running times are right, and so are all times of a process on its way out. -/
structure Timed (s : Sys) (r : Ran) : Prop where
  family : Family s
  running : ∀ i, (s.proc i).runningT = Int32.ofNat (r i)
  exiting : ∀ i, (s.proc i).state.Alive → (s.proc i).pc = .exiting →
    TimesRight s.ticks (r i) (s.proc i)

theorem TimesRight.congr {now : UInt32} {r : Nat} {p q : Proc} (h : TimesRight now r p)
    (hc : q.clock = p.clock) : TimesRight now r q := by
  simp only [Proc.clock, Prod.mk.injEq] at hc
  obtain ⟨h1, h2, h3, h4⟩ := hc
  exact ⟨h2.trans h.running, by rw [h1, h4]; exact h.turnaround, by rw [h2, h3, h4]; exact h.waiting⟩

variable {r : Ran} {i : Fin NPROC}

/-! ## Steps -/

namespace Orderly

theorem not_quits (h : Orderly pol s e) (i : Fin NPROC) : ¬ Quits s e i := by
  rintro ⟨hcur, rfl | ⟨he, hk⟩⟩
  · exact (h.1 i hcur).1 rfl
  · rw [(h.1 i hcur).2.1 he] at hk
    cases hk

theorem ticks (h : Orderly pol s e) (hk : Kind s e t) (ha : (s.proc i).state.Alive)
    (hpc : (s.proc i).pc = .exiting) : t.ticks = s.ticks :=
  hk.ticks.resolve_right fun ht => h.2 ht.1.symm i ha hpc

theorem noteRan_kept (h : Orderly pol s e) (hpol : pol ≠ .default)
    (hu : (s.proc i).state = .unused → (t.proc i).state = .unused)
    (hn : e = .trap .timer → s.cur = some i → pol = .default ∨ pol = .frr ∧ QUANTA ≤ (s.proc i).slot + 1) :
    noteRan s e t r i = r i := by
  have hslot := fun hcur => (h.1 i hcur).2.2.2
  simp only [noteRan]
  grind

theorem noteRan_stopped (h : Orderly pol s e) (hcur : s.cur = some i) (hr : (s.proc i).state = .running)
    (hn : e = .trap .timer → (s.proc i).killed = true ∧ (s.proc i).pc = .user) : noteRan s e t r i = r i := by
  have hno := (h.1 i hcur).2.2.1
  simp only [noteRan]
  grind

end Orderly

theorem step_timed (hpol : pol ≠ .default) {x y : Sys × Ran}
    (h : withHistory (step pol) noteRan x e = some y) (hC : Orderly pol x.1 e)
    (hx : Timed x.1 x.2) : Timed y.1 y.2 := by
  obtain ⟨hstep, hy⟩ := withHistory_some h
  obtain ⟨hkind, ht⟩ := step_family hstep hx.family
  obtain ⟨s, r⟩ := x
  obtain ⟨t, r'⟩ := y
  dsimp only at hstep hy ht hx hC hkind ⊢
  subst hy
  have hclock := (step_cases hstep).clock hx.family
  have hrunning : ∀ c, s.cur = some c → (s.proc c).state = .running := fun c => (hx.family.one c).mp
  refine ⟨ht, fun i => ?_, fun i hi hexit => ?_⟩
  · have hr := hx.running i
    cases hclock i with
    | kept hu hc _ hn =>
      rw [hC.noteRan_kept hpol hu hn]
      exact (congrArg (·.2.1) hc).trans hr
    | born hs ht _ hzero => rw [hzero, noteRan, if_pos ⟨hs, ht⟩]; rfl
    | reaped hs _ he hsame => rw [hsame, hr, noteRan, if_neg (by simp [hs]), if_neg (by simp [he])]
    | ran he hcur _ _ hc =>
      have hsucc : (t.proc i).runningT = (s.proc i).runningT + 1 := congrArg (·.2.1) hc
      rw [hsucc, hr, noteRan, if_neg (by simp [hrunning i hcur]), if_pos ⟨he, hcur, hrunning i hcur⟩, Int32.ofNat_add]
      rfl
    | stopped hcur hn hc => rw [hC.noteRan_stopped hcur (hrunning i hcur) hn]; exact (congrArg (·.2.1) hc).trans hr
  · cases hclock i with
    | kept hu hc hx' hn =>
      obtain ⟨ha, hpc⟩ | hq := hx' hi hexit
      · rw [hC.noteRan_kept hpol hu hn, hC.ticks hkind ha hpc]
        exact (hx.exiting i ha hpc).congr hc
      · exact absurd hq (hC.not_quits i)
    | born _ ht => simp [ht, ProcState.Alive] at hi
    | reaped _ ht => simp [ht, ProcState.Alive] at hi
    | ran he hcur _ hpc => exact absurd (hpc ▸ hexit) (hC.2 (.inl he) i (hx.family.alive_cur hcur))
    | stopped hcur hn hc =>
      rw [hC.noteRan_stopped hcur (hrunning i hcur) hn]
      simp only [Proc.clock, Prod.mk.injEq] at hc
      obtain ⟨h1, h2, h3, h4⟩ := hc
      exact ⟨h2.trans (hx.running i), by rw [h1, h4], by rw [h2, h3, h4]⟩

theorem boot_timed : Timed boot fun _ => 0 := by
  have hp := boot_proc
  refine ⟨boot_family, fun i => ?_, fun i _ hx => ?_⟩
  · have hr : (boot.proc i).runningT = 0 := by grind [Proc.blank]
    rw [hr]
    rfl
  · grind [Proc.blank]

def childFaults : List Event :=
  [.scan, .allocproc, .forkDone true, .wait, .scan, .trap .timer, .trap .fault]

end Xv6.Sched
