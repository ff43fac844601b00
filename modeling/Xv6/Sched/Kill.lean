import Xv6.Sched.Life

/-!
# Whom `kill()` hits

`kill()` compares pids and does not look at the state of a slot. A free slot has the
pid 0, or the pid of a process whose `fork()` failed, and `allocproc` does not clear
`killed`. So `kill(0)` returns 0 with a free slot marked, and the next process made
in that slot is born killed. The same happens to a process that is killed while it is
half made.

`HitsLive` excludes these calls. When every `kill()` of a run is like that, a free or
half-made slot is never marked, and `kill()` does what it should (`KillSpec`).
-/

namespace Xv6.Sched

open Table Scan Trans

variable {pol : Policy} {s t : Sys} {e : Event}

/-- The slot `kill(pid)` finds. -/
def killTarget (s : Sys) (pid : Int32) : Option (Fin NPROC) :=
  firstFin fun i => decide ((s.proc i).pid = pid)

def killRet (s : Sys) (pid : Int32) : Int := if (killTarget s pid).isSome then 0 else -1

/-- A slot hit by `kill()`. -/
def Proc.hit (p : Proc) : Proc :=
  { p with killed := true, state := if p.state = .sleeping then .runnable else p.state }

theorem kill_eq (s : Sys) (pid : Int32) :
    kill s pid = (killTarget s pid).elim s fun i => s.set i Proc.hit := by
  rw [kill, killTarget]
  cases firstFin fun i => decide ((s.proc i).pid = pid) with
  | none => rfl
  | some i => rfl

/-- What `kill(pid)` should do: it returns 0 iff some process has the pid, and then it marks
one that has it and wakes it up. Otherwise it returns -1 and nothing changes. -/
structure KillSpec (s : Sys) (pid : Int32) : Prop where
  found : killRet s pid = 0 ↔ ∃ i, (s.proc i).state ≠ .unused ∧ (s.proc i).pid = pid
  hit : killRet s pid = 0 →
    ∃ i, (s.proc i).state ≠ .unused ∧ (s.proc i).pid = pid ∧ kill s pid = s.set i Proc.hit
  miss : killRet s pid ≠ 0 → killRet s pid = -1 ∧ kill s pid = s

/-- The event is no `kill()` that finds a free or half-made slot. -/
def HitsLive (s : Sys) : Event → Prop
  | .kill pid => ∀ i, killTarget s pid = some i →
      (s.proc i).state ≠ .unused ∧ (s.proc i).state ≠ .embryo
  | _ => True

instance (s : Sys) (e : Event) : Decidable (HitsLive s e) := by
  cases e <;> unfold HitsLive <;> infer_instance

theorem kill_spec {pid : Int32} (h : ∀ i, killTarget s pid = some i → (s.proc i).state ≠ .unused) :
    KillSpec s pid := by
  have hk := kill_eq s pid
  cases ht : killTarget s pid with
  | none =>
    have hret : killRet s pid = -1 := by rw [killRet, ht]; rfl
    rw [ht] at hk
    refine ⟨⟨fun h0 => ?_, fun ⟨i, _, hi⟩ => ?_⟩, fun h0 => ?_, fun _ => ⟨hret, hk⟩⟩
    · rw [hret] at h0
      cases h0
    · exact absurd hi (of_decide_eq_false (firstFin_none ht i))
    · rw [hret] at h0
      cases h0
  | some i =>
    have hret : killRet s pid = 0 := by rw [killRet, ht]; rfl
    have hpid : (s.proc i).pid = pid := of_decide_eq_true (firstFin_some ht)
    rw [ht] at hk
    exact ⟨⟨fun _ => ⟨i, h i ht, hpid⟩, fun _ => hret⟩, fun _ => ⟨i, h i ht, hpid, hk⟩,
      fun hne => absurd hret hne⟩

/-! ## Runs -/

theorem wakeup1_killed (s : Sys) (chan : Chan) (i : Fin NPROC) :
    ((wakeup1 s chan).proc i).killed = (s.proc i).killed := by
  dsimp only [wakeup1]
  rw [Proc.wake_eq]

theorem handle_killed_ne {c : Option (Fin NPROC)} {i : Fin NPROC} (hi : c ≠ some i) (no : TrapNo) :
    ((handle s c no).proc i).killed = (s.proc i).killed := by
  cases no with
  | timer => exact wakeup1_killed { s with ticks := s.ticks + 1 } .ticks i
  | device n => exact wakeup1_killed s (.other n) i
  | fault =>
    cases c with
    | none => rfl
    | some c =>
      have hic : i ≠ c := fun h => hi (h ▸ rfl)
      simp only [handle, Option.elim, Sys.set, upd_ne _ _ hic]

theorem set_killed {c i : Fin NPROC} {f : Proc → Proc} (hf : ∀ p, (f p).killed = p.killed) :
    ((s.set c f).proc i).killed = (s.proc i).killed := set_agree hf i

theorem yield_killed (c i : Fin NPROC) : ((yield s c).proc i).killed = (s.proc i).killed := by
  simp only [yield, Sys.leave]
  exact set_killed fun _ => by rfl

theorem onTick_killed (c i : Fin NPROC) : ((onTick pol s c).proc i).killed = (s.proc i).killed := by
  cases pol with
  | default => exact yield_killed c i
  | frr =>
    simp only [onTick]
    split
    · exact (yield_killed c i).trans (set_killed fun _ => by rfl)
    · exact set_killed fun _ => by rfl
  | fcfs =>
    simp only [onTick]
    exact set_killed fun _ => by rfl

theorem Step.killed_ne (h : Step pol s e t) (hk : ∀ pid, e ≠ .kill pid) (hx : e ≠ .exit)
    {i : Fin NPROC} (hi : s.cur ≠ some i) :
    (t.proc i).killed = (s.proc i).killed ∨ (t.proc i).killed = false := by
  cases h with
  | pass hcur n => exact .inl rfl
  | dispatch hcur p hscan hrun =>
    simp only [Sched.dispatch]
    exact .inl (set_killed fun _ => by rfl)
  | idle hcur hno => exact .inl (handle_killed_ne (by rintro ⟨⟩) _)
  | trap hcur hstay => exact .inl (handle_killed_ne (hcur ▸ hi) _)
  | tick hcur hlive => exact .inl ((onTick_killed _ i).trans (handle_killed_ne (hcur ▸ hi) _))
  | forced hcur hinit hkilled huser =>
    exact .inl ((set_killed fun _ => by rfl).trans (handle_killed_ne (hcur ▸ hi) _))
  | resume hcur hy => exact .inl (set_killed fun _ => by rfl)
  | resumeForced hcur hy hinit hkilled huser =>
    exact .inl ((set_killed fun _ => by rfl).trans (set_killed fun _ => by rfl))
  | enter hcur huser => exact .inl (set_killed fun _ => by rfl)
  | leave hcur hkernel => exact .inl (set_killed fun _ => by rfl)
  | quit hcur hinit he hpc => exact .inl (set_killed fun _ => by rfl)
  | alloc hcur hkernel j hfree hfirst =>
    exact .inl (alloc_agree (fun _ _ _ => by rfl) (fun _ => by rfl) i)
  | forked hcur hpc ok =>
    refine .inl ((set_killed fun _ => by rfl).trans (set_killed fun p => ?_))
    split
    · rfl
    · rfl
  | reap hcur j hparent hzombie =>
    simp only [Sys.set, upd_apply]
    split
    · exact .inr rfl
    · exact .inl rfl
  | killed hcur pid j => exact absurd rfl (hk pid)
  | sleep hcur he => exact .inl (sleep_agree (fun _ => by rfl) i)
  | wakeup hcur chan => exact .inl (wakeup1_killed s chan i)
  | skip hcur he => exact .inl rfl
  | turn hcur => exact .inl (set_killed fun _ => by rfl)
  | exit hcur hpc ht => exact absurd rfl hx

/-- A slot of the table is free or half made. -/
def ProcState.Empty (st : ProcState) : Prop := st = .unused ∨ st = .embryo

theorem ProcState.Empty.not_alive {st : ProcState} (h : st.Empty) : ¬ st.Alive := by
  rcases h with rfl | rfl
  · simp [ProcState.Alive]
  · simp [ProcState.Alive]

theorem LifeKind.empty (hk : LifeKind s e t) (h : Family s) {i : Fin NPROC}
    (hi : (t.proc i).state.Empty) : (s.proc i).state.Empty ∨ (t.proc i).killed = false := by
  cases hk with
  | still hs _ _ =>
    have hc := hs.slot i
    exact .inl (hi.imp hc.unused.mp hc.embryo.mp)
  | @turn c hcur =>
    have hst : (((s.set c fun p => { p with pidtimes := p.pidtimes + 1 }).proc i)).state =
      (s.proc i).state := set_agree (fun _ => by rfl) i
    rw [hst] at hi
    exact .inl hi
  | @alloc c hcur hkernel j hfree =>
    refine .inl ?_
    simp only [Sys.set, upd_apply, Proc.alloc, ProcState.Empty] at hi ⊢
    grind
  | @forked c j hcur hpc ok =>
    refine .inl ?_
    simp only [forkDone, Sys.set, upd_apply, ProcState.Empty] at hi ⊢
    grind [h.forking c j hpc]
  | reap hcur j hparent hzombie =>
    simp only [Sys.set, upd_apply] at hi ⊢
    split
    · exact .inr rfl
    · rename_i hij
      rw [if_neg hij] at hi
      exact .inl hi
  | @exit c hcur hpc =>
    have hx := exitLife_spec s c
    refine .inl ?_
    have h₁ := hx.zombie
    have h₂ := hx.state i
    simp only [ProcState.Empty] at hi ⊢
    grind

/-- A free or half-made slot is not marked. -/
def Unmarked (s : Sys) : Prop := ∀ i, (s.proc i).state.Empty → (s.proc i).killed = false

theorem unmarked_kill {pid : Int32} (h : Unmarked s) (hlive : HitsLive s (.kill pid)) :
    Unmarked (kill s pid) := by
  intro i hi
  rw [kill_eq] at hi ⊢
  cases ht : killTarget s pid with
  | none =>
    rw [ht] at hi
    exact h i hi
  | some j =>
    rw [ht] at hi
    simp only [Option.elim, Sys.set, upd_apply] at hi ⊢
    split
    · rename_i hij
      rw [if_pos hij] at hi
      have hj := hlive j ht
      dsimp only [Proc.hit] at hi
      split at hi
      · exact absurd (.inr (.inl rfl)) hi.not_alive
      · exact (hi.elim hj.1 hj.2).elim
    · rename_i hij
      rw [if_neg hij] at hi
      exact h i hi

theorem unmarked_step (hstep : lifeStep pol s e = some t) (hlive : HitsLive s e) (hf : Family s)
    (h : Unmarked s) : Unmarked t := by
  have hk := (life_family hstep hf).1
  have hstep' := lifeStep_cases hstep
  by_cases hkill : ∃ pid, e = .kill pid
  · obtain ⟨pid, rfl⟩ := hkill
    rw [lifeStep_kill hstep]
    exact unmarked_kill h hlive
  · intro i hi
    rcases hk.empty hf hi with hs | hs
    · have hi' : s.cur ≠ some i := fun hc => hs.not_alive (hf.alive_cur hc)
      have hsame : (t.proc i).killed = (s.proc i).killed ∨ (t.proc i).killed = false := by
        cases hstep' with
        | step hst hst' hx hsleep => exact hst.killed_ne (fun pid he => hkill ⟨pid, he⟩) hx hi'
        | skip hcur he => exact .inl rfl
        | turn hcur => exact .inl (set_killed fun _ => by rfl)
        | @exit c hcur hpc =>
          rw [(exitLife_spec s c).slot]
          exact .inl rfl
      rcases hsame with heq | hfalse
      · rw [heq]
        exact h i hs
      · exact hfalse
    · exact hs

theorem unmarked_boot : Unmarked boot := by
  intro i _
  simp only [boot, upd_apply]
  split
  · rfl
  · rfl

end Xv6.Sched
