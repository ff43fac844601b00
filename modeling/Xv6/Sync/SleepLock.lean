import Mathlib
import Xv6.Sync.Wakeup

/-!
# Sleep locks

`acquiresleep()`, `releasesleep()` and `holdingsleep()` of `sleeplock.c` on one lock, one
acquire, release, assignment or slot of the table at a time, for any number of processes.
A process that holds the lock may call `holdingsleep()` and `releasesleep()`, another one
`holdingsleep()` and `acquiresleep()`, and any process may be killed at any time.

The processes follow the pattern of `Sync`: `lk->lk` is the lock of the condition that
`lk->locked` is 0, `acquiresleep()` is a consumer and `releasesleep()` a producer. Each step
is a step of that system, the call of `holdingsleep()` and `kill()` apart, which keep its
invariant (`inv_step`).
-/

namespace Xv6.SleepLock

open Table Trans

/-- Where a process stands, by what it does next. -/
inductive Pc where
  /-- Without the lock: `acquire(&lk->lk)` in `acquiresleep()` or `holdingsleep()`. -/
  | idle
  /-- The test of `lk->locked`. -/
  | test
  /-- `lk->locked = 1` and `lk->pid = myproc()->pid`. -/
  | take
  /-- `release(&lk->lk)`, the end of `acquiresleep()`. -/
  | got
  /-- With the lock: `acquire(&lk->lk)` in `releasesleep()` or `holdingsleep()`. -/
  | holding
  /-- `lk->locked = 0` and `lk->pid = 0`. -/
  | clear
  /-- `wakeup(lk)`. -/
  | cleared
  /-- In `wakeup()`: `acquire(&ptable.lock)`. -/
  | wakeAcquire
  /-- `wakeup1` at slot `i`. -/
  | scan (i : Nat)
  /-- `release(&ptable.lock)`. -/
  | wakeRelease
  /-- `release(&lk->lk)`, the end of `releasesleep()`. -/
  | unlock
  /-- In `holdingsleep()`, called with the lock or without it: `release(&lk->lk)`. -/
  | asking (held : Bool)
  /-- In `sleep()`: `acquire(&ptable.lock)`. -/
  | sleepAcquire
  /-- `release(lk)`. -/
  | sleepRelease
  /-- `p->chan = chan`. -/
  | sleepChan
  /-- `p->state = SLEEPING`. -/
  | sleepState
  /-- `sched()`. -/
  | sleepSched
  /-- Off the CPU. -/
  | parked
  /-- `p->chan = 0`. -/
  | tidy
  /-- `release(&ptable.lock)`. -/
  | tidied
  /-- `acquire(lk)`, the end of `sleep()`. -/
  | relock
deriving DecidableEq

structure Proc where
  pc : Pc
  state : Sync.PState
  /-- `p->chan` is the lock. -/
  chan : Bool

structure Sys (n : Nat) where
  /-- Who holds `lk->lk`. -/
  lk : Option (Fin n)
  /-- Who holds `ptable.lock`. -/
  ptable : Option (Fin n)
  locked : Bool
  /-- `lk->pid`. -/
  lkPid : Int32
  proc : Fin n → Proc

variable {n : Nat}

/-- The state after `initsleeplock()`. -/
def initsleeplock : Sys n := ⟨none, none, false, 0, fun _ => ⟨.idle, .running, false⟩⟩

def Sys.goto (s : Sys n) (k : Fin n) (pc : Pc) : Sys n :=
  { s with proc := upd s.proc k { s.proc k with pc := pc } }

/-- What `wakeup1` does to one slot. -/
def Proc.wake (p : Proc) : Proc :=
  if p.state = .sleeping ∧ p.chan = true then { p with state := .runnable } else p

/-- What `kill()` does to the process: it wakes it up whatever it sleeps on. -/
def Proc.kill (p : Proc) : Proc :=
  if p.state = .sleeping then { p with state := .runnable } else p

inductive Event (n : Nat) where
  /-- The next step of process `k`. `ask` decides whether it calls `holdingsleep()`. -/
  | run (k : Fin n) (ask : Bool)
  /-- `kill()` of process `j`, under `ptable.lock`. -/
  | kill (j : Fin n)

variable (pid : Fin n ↪ Int32)

def holdingsleep (s : Sys n) (k : Fin n) : Bool := s.locked && decide (s.lkPid = pid k)

def step (s : Sys n) : Event n → Option (Sys n)
  | .kill j =>
    if s.ptable = none then some { s with proc := upd s.proc j (s.proc j).kill } else none
  | .run k ask =>
    match (s.proc k).pc with
    | .idle =>
      if s.lk = none then
        some { s.goto k (if ask then .asking false else .test) with lk := some k }
      else none
    | .test => some (s.goto k (if s.locked then .sleepAcquire else .take))
    | .take => some { s.goto k .got with locked := true, lkPid := pid k }
    | .got => some { s.goto k .holding with lk := none }
    | .holding =>
      if s.lk = none then
        some { s.goto k (if ask then .asking true else .clear) with lk := some k }
      else none
    | .clear => some { s.goto k .cleared with locked := false, lkPid := 0 }
    | .cleared => some (s.goto k .wakeAcquire)
    | .wakeAcquire =>
      if s.ptable = none then some { s.goto k (.scan 0) with ptable := some k } else none
    | .scan i =>
      if h : i < n then
        some ({ s with proc := upd s.proc ⟨i, h⟩ (s.proc ⟨i, h⟩).wake }.goto k (.scan (i + 1)))
      else some (s.goto k .wakeRelease)
    | .wakeRelease => some { s.goto k .unlock with ptable := none }
    | .unlock => some { s.goto k .idle with lk := none }
    | .asking held => some { s.goto k (if held then .holding else .idle) with lk := none }
    | .sleepAcquire =>
      if s.ptable = none then some { s.goto k .sleepRelease with ptable := some k } else none
    | .sleepRelease => some { s.goto k .sleepChan with lk := none }
    | .sleepChan => some { s with proc := upd s.proc k ⟨.sleepState, (s.proc k).state, true⟩ }
    | .sleepState => some { s with proc := upd s.proc k ⟨.sleepSched, .sleeping, (s.proc k).chan⟩ }
    | .sleepSched => some { s.goto k .parked with ptable := none }
    | .parked =>
      if (s.proc k).state = .runnable ∧ s.ptable = none then
        some { s with ptable := some k, proc := upd s.proc k ⟨.tidy, .running, (s.proc k).chan⟩ }
      else none
    | .tidy => some { s with proc := upd s.proc k ⟨.tidied, (s.proc k).state, false⟩ }
    | .tidied => some { s.goto k .relock with ptable := none }
    | .relock => if s.lk = none then some { s.goto k .test with lk := some k } else none

/-! ## A system with a condition -/

/-- The place in the system with the condition that the lock is free. -/
def Pc.abs : Pc → Sync.Pc
  | .idle | .holding => .idle
  | .test => .test
  | .take => .work
  | .got | .unlock | .asking _ => .unlock
  | .clear => .make
  | .cleared => .made
  | .wakeAcquire => .wakeAcquire true
  | .scan i => .scan true i
  | .wakeRelease => .wakeRelease true
  | .sleepAcquire => .sleepAcquire
  | .sleepRelease => .sleepRelease
  | .sleepChan => .sleepChan
  | .sleepState => .sleepState
  | .sleepSched => .sleepSched
  | .parked => .parked
  | .tidy => .tidy
  | .tidied => .tidied
  | .relock => .relock

def Proc.abs (p : Proc) : Sync.Proc := ⟨p.pc.abs, p.state, p.chan⟩

def Sys.abs (s : Sys n) : Sync.Sys n := ⟨s.lk, s.ptable, !s.locked, fun k => (s.proc k).abs⟩

theorem abs_upd (proc : Fin n → Proc) (k : Fin n) (p : Proc) :
    (fun j => (upd proc k p j).abs) = upd (fun j => (proc j).abs) k p.abs := by
  funext j
  rw [upd_apply, upd_apply]
  split
  · rfl
  · rfl

theorem wake_abs (p : Proc) : p.wake.abs = p.abs.wake := by
  unfold Proc.wake
  split
  · next h => exact (if_pos h).symm
  · next h => exact (if_neg h).symm

theorem abs_mk (s : Sys n) (lk ptable : Option (Fin n)) (locked : Bool) (lkPid : Int32) (k : Fin n)
    (p : Proc) : Sys.abs ⟨lk, ptable, locked, lkPid, upd s.proc k p⟩ =
      ⟨lk, ptable, !locked, upd s.abs.proc k p.abs⟩ := by
  rw [Sys.abs, abs_upd]
  rfl

theorem abs_goto (s : Sys n) (k : Fin n) (pc : Pc) : (s.goto k pc).abs = s.abs.goto k pc.abs :=
  abs_mk s _ _ _ _ k _

theorem abs_wakeSlot (s : Sys n) (i : Fin n) :
    ({ s with proc := upd s.proc i (s.proc i).wake } : Sys n).abs = s.abs.wakeSlot i := by
  rw [abs_mk, wake_abs]
  rfl

variable {pid} {s t : Sys n} {k : Fin n} {ask : Bool}

/-- A step of process `k` is a step of the system with the condition, unless it calls
`holdingsleep()`. -/
theorem step_abs (hstep : step pid s (.run k ask) = some t)
    (hask : (s.proc k).pc = .idle ∨ (s.proc k).pc = .holding → ask = false) :
    ∃ choice, Sync.step s.abs (k, choice) = some t.abs := by
  have hpc' : (s.abs.proc k).pc = (s.proc k).pc.abs := rfl
  cases hpc : (s.proc k).pc <;> simp only [step, hpc] at hstep
  case idle =>
    rw [hask (.inl hpc)] at hstep
    obtain ⟨hfree, ⟨⟩⟩ := Option.ite_none_right_eq_some.mp hstep
    refine ⟨false, ?_⟩
    simp only [Sync.step, hpc', hpc, Pc.abs]
    exact (if_pos hfree).trans (congrArg some (Eq.symm (by exact abs_mk s _ _ _ _ k _)))
  case holding =>
    rw [hask (.inr hpc)] at hstep
    obtain ⟨hfree, ⟨⟩⟩ := Option.ite_none_right_eq_some.mp hstep
    refine ⟨true, ?_⟩
    simp only [Sync.step, hpc', hpc, Pc.abs]
    exact (if_pos hfree).trans (congrArg some (Eq.symm (by exact abs_mk s _ _ _ _ k _)))
  case test =>
    cases hstep
    refine ⟨false, ?_⟩
    simp only [Sync.step, hpc', hpc, Pc.abs]
    rw [Sys.goto, abs_mk]
    cases hl : s.locked with
    | true => simp [Sys.abs, Sync.Sys.goto, hl, Proc.abs, Pc.abs]
    | false => simp [Sys.abs, Sync.Sys.goto, hl, Proc.abs, Pc.abs]
  case scan i =>
    refine ⟨false, ?_⟩
    simp only [Sync.step, hpc', hpc, Pc.abs]
    split at hstep
    · next hi =>
        cases hstep
        rw [dif_pos hi]
        rw [abs_goto, abs_wakeSlot]
        rfl
    · next hi =>
        cases hstep
        rw [dif_neg hi]
        exact congrArg some (Eq.symm (by exact abs_mk s _ _ _ _ k _))
  case wakeAcquire | sleepAcquire | parked | relock =>
    obtain ⟨hfree, ⟨⟩⟩ := Option.ite_none_right_eq_some.mp hstep
    refine ⟨false, ?_⟩
    simp only [Sync.step, hpc', hpc, Pc.abs]
    exact (if_pos hfree).trans (congrArg some (Eq.symm (by exact abs_mk s _ _ _ _ k _)))
  case take =>
    cases hstep
    refine ⟨false, ?_⟩
    simp only [Sync.step, hpc', hpc, Pc.abs]
    exact congrArg some (Eq.symm (by exact abs_mk s _ _ _ _ k _))
  case asking held =>
    cases hstep
    refine ⟨false, ?_⟩
    simp only [Sync.step, hpc', hpc, Pc.abs]
    refine congrArg some (Eq.symm ?_)
    refine (abs_mk s _ _ _ _ k _).trans ?_
    cases held with
    | true => rfl
    | false => rfl
  all_goals
    -- the other steps have no condition
    cases hstep
    refine ⟨true, ?_⟩
    simp only [Sync.step, hpc', hpc, Pc.abs]
    exact congrArg some (Eq.symm (by exact abs_mk s _ _ _ _ k _))

theorem ask_inv (h : Sync.Inv s.abs) (hfree : s.lk = none) (hpc : (s.proc k).pc.abs = .idle) (held : Bool) :
    Sync.Inv ({ s.goto k (.asking held) with lk := some k } : Sys n).abs := by
  have hpc' : (s.abs.proc k).pc = .idle := hpc
  exact h.plain (p := ⟨.unlock, (s.proc k).state, (s.proc k).chan⟩) hpc' (abs_upd s.proc k _)
    (h.awake hpc' nofun nofun) (.take rfl hfree rfl) (.keep rfl rfl) rfl trivial fun _ => id

theorem kill_inv (h : Sync.Inv s.abs) (j : Fin n) :
    Sync.Inv ({ s with proc := upd s.proc j (s.proc j).kill } : Sys n).abs := by
  have hkill : (s.proc j).kill = (s.proc j).wake := by
    unfold Proc.kill Proc.wake
    by_cases hs : (s.proc j).state = .sleeping
    · rw [if_pos hs, if_pos ⟨hs, (h.asleep j hs).1⟩]
    · rw [if_neg hs, if_neg fun hw => hs hw.1]
  rw [hkill, abs_wakeSlot]
  exact h.wakeSlot j

theorem inv_step {e : Event n} (hstep : step pid s e = some t) (h : Sync.Inv s.abs) : Sync.Inv t.abs := by
  cases e with
  | kill j =>
    obtain ⟨-, ⟨⟩⟩ := Option.ite_none_right_eq_some.mp hstep
    exact kill_inv h j
  | run k ask =>
    by_cases hask : (s.proc k).pc = .idle ∨ (s.proc k).pc = .holding → ask = false
    · obtain ⟨choice, hsync⟩ := step_abs hstep hask
      exact Sync.inv_step hsync h
    · obtain ⟨hpc, htrue⟩ := Classical.not_imp.mp hask
      rw [Bool.not_eq_false] at htrue
      rcases hpc with hpc | hpc
      · simp only [step, hpc, htrue] at hstep
        obtain ⟨hfree, ⟨⟩⟩ := Option.ite_none_right_eq_some.mp hstep
        exact ask_inv h hfree (by rw [hpc]; rfl) false
      · simp only [step, hpc, htrue] at hstep
        obtain ⟨hfree, ⟨⟩⟩ := Option.ite_none_right_eq_some.mp hstep
        exact ask_inv h hfree (by rw [hpc]; rfl) true

/-! ## The holder -/

/-- `lk->locked` has been set by the process. -/
def Pc.owns : Pc → Bool
  | .got | .holding | .clear | .asking true => true
  | _ => false

/-- The process is between the return of `acquiresleep()` and `releasesleep()`. -/
def Pc.between : Pc → Bool
  | .holding | .asking true => true
  | _ => false

structure Holder (pid : Fin n ↪ Int32) (s : Sys n) : Prop where
  one : ∀ j k, (s.proc j).pc.owns = true → (s.proc k).pc.owns = true → j = k
  mine : ∀ k, (s.proc k).pc.owns = true → s.locked = true ∧ s.lkPid = pid k
  there : s.locked = true → ∃ k, (s.proc k).pc.owns = true

theorem Holder.holdingsleep_iff (h : Holder pid s) (k : Fin n) :
    holdingsleep pid s k = true ↔ (s.proc k).pc.owns = true := by
  rw [holdingsleep, Bool.and_eq_true, decide_eq_true_eq]
  constructor
  · rintro ⟨hl, hp⟩
    obtain ⟨j, hj⟩ := h.there hl
    have hpid := (h.mine j hj).2
    rw [hp] at hpid
    rw [pid.injective hpid]
    exact hj
  · exact h.mine k

theorem Holder.keep (h : Holder pid s) (howns : ∀ j, (t.proc j).pc.owns = (s.proc j).pc.owns)
    (hl : t.locked = s.locked) (hp : t.lkPid = s.lkPid) : Holder pid t := by
  refine ⟨fun j k hj hk => ?_, fun k hk => ?_, fun htrue => ?_⟩
  · rw [howns] at hj hk
    exact h.one j k hj hk
  · rw [howns] at hk
    rw [hl, hp]
    exact h.mine k hk
  · rw [hl] at htrue
    obtain ⟨k, hk⟩ := h.there htrue
    exact ⟨k, by rw [howns]; exact hk⟩

theorem owns_upd (proc : Fin n → Proc) (k : Fin n) {p : Proc} (h : p.pc.owns = (proc k).pc.owns)
    (j : Fin n) : (upd proc k p j).pc.owns = (proc j).pc.owns := by
  rw [upd_apply]
  split
  · next hj => rw [h, hj]
  · rfl

theorem wake_pc (p : Proc) : p.wake.pc = p.pc := by
  unfold Proc.wake
  split
  · rfl
  · rfl

theorem kill_pc (p : Proc) : p.kill.pc = p.pc := by
  unfold Proc.kill
  split
  · rfl
  · rfl

theorem holder_step {e : Event n} (hstep : step pid s e = some t) (hinv : Sync.Inv s.abs)
    (h : Holder pid s) : Holder pid t := by
  cases e with
  | kill j =>
    obtain ⟨-, ⟨⟩⟩ := Option.ite_none_right_eq_some.mp hstep
    exact h.keep (owns_upd s.proc j (by rw [kill_pc])) rfl rfl
  | run k ask =>
    cases hpc : (s.proc k).pc <;> simp only [step, hpc] at hstep
    case take =>
      cases hstep
      have hfree : s.locked = false := by
        have hcond := hinv.working k (by change (s.proc k).pc.abs = _; rw [hpc]; rfl)
        exact Bool.not_eq_true' _ ▸ hcond
      have hnone : ∀ j, (s.proc j).pc.owns ≠ true := by
        intro j hj
        rw [(h.mine j hj).1] at hfree
        cases hfree
      have howns : ∀ j, ((s.goto k .got).proc j).pc.owns = true → j = k := by
        intro j hj
        by_contra hne
        simp only [Sys.goto, upd_ne _ _ hne] at hj
        exact hnone j hj
      refine ⟨fun i j hi hj => (howns i hi).trans (howns j hj).symm, fun j hj => ?_, fun _ => ⟨k, ?_⟩⟩
      · rw [howns j hj]
        exact ⟨rfl, rfl⟩
      · simp only [Sys.goto, upd_same]
        rfl
    case clear =>
      cases hstep
      have hk : (s.proc k).pc.owns = true := by rw [hpc]; rfl
      have hnone : ∀ j, ((s.goto k .cleared).proc j).pc.owns ≠ true := by
        intro j hj
        by_cases hne : j = k
        · simp only [Sys.goto, hne, upd_same] at hj
          cases hj
        · simp only [Sys.goto, upd_ne _ _ hne] at hj
          exact hne (h.one j k hj hk)
      exact ⟨fun i j hi _ => absurd hi (hnone i), fun j hj => absurd hj (hnone j), by rintro ⟨⟩⟩
    case scan i =>
      split at hstep
      · next hi =>
          cases hstep
          have hwake := owns_upd s.proc ⟨i, hi⟩ (p := (s.proc ⟨i, hi⟩).wake) (by rw [wake_pc])
          refine h.keep (fun j => (owns_upd _ k ?_ j).trans (hwake j)) rfl rfl
          rw [hwake, hpc]
          rfl
      · cases hstep
        exact h.keep (owns_upd s.proc k (by rw [hpc]; rfl)) rfl rfl
    case idle | holding =>
      obtain ⟨-, ⟨⟩⟩ := Option.ite_none_right_eq_some.mp hstep
      refine h.keep (owns_upd s.proc k ?_) rfl rfl
      rw [hpc]
      cases ask with
      | true => rfl
      | false => rfl
    case asking held =>
      cases hstep
      refine h.keep (owns_upd s.proc k ?_) rfl rfl
      rw [hpc]
      cases held with
      | true => rfl
      | false => rfl
    case test =>
      cases hstep
      refine h.keep (owns_upd s.proc k ?_) rfl rfl
      rw [hpc]
      cases s.locked with
      | true => rfl
      | false => rfl
    case wakeAcquire | sleepAcquire | parked | relock =>
      obtain ⟨-, ⟨⟩⟩ := Option.ite_none_right_eq_some.mp hstep
      exact h.keep (owns_upd s.proc k (by rw [hpc]; rfl)) rfl rfl
    all_goals
      cases hstep
      exact h.keep (owns_upd s.proc k (by rw [hpc]; rfl)) rfl rfl

/-! ## Runs -/

theorem initsleeplock_inv : Sync.Inv (initsleeplock : Sys n).abs := Sync.inv_boot true

theorem initsleeplock_holder : Holder pid (initsleeplock : Sys n) :=
  ⟨by rintro j k ⟨⟩, by rintro k ⟨⟩, by rintro ⟨⟩⟩

theorem holdsLk_of_owes {pc : Pc} {i : Nat} (h : pc.abs.Owes i) : pc.abs.holdsLk = true := by
  cases pc with
  | cleared | wakeAcquire | scan => rfl
  | _ => cases h

theorem between_of_owns {pc : Pc} (h : pc.owns = true) (hlk : pc.abs.holdsLk = false) :
    pc.between = true := by
  cases pc with
  | holding => rfl
  | asking held => cases hlk
  | got | clear => cases hlk
  | _ => cases h

theorem owns_of_between {pc : Pc} (h : pc.between = true) : pc.owns = true := by
  cases pc with
  | holding => rfl
  | asking held =>
    cases held with
    | true => rfl
    | false => cases h
  | _ => cases h

/-- **Sleep locks exclude and do not strand.**  In every interleaving at most one process is
between `acquiresleep()` and `releasesleep()`, `holdingsleep()` is true for this process and no
other whenever it can be evaluated, and no process sleeps on a lock that is free while nobody
holds its spin lock. -/
theorem sleeplock_excludes {es : List (Event n)} (hrun : run (step pid) initsleeplock es = some s) :
    (∀ j k, (s.proc j).pc.between = true → (s.proc k).pc.between = true → j = k) ∧
    (∀ k, (s.lk = none ∨ ∃ held, (s.proc k).pc = .asking held) →
      (holdingsleep pid s k = true ↔ (s.proc k).pc.between = true)) ∧ (s.lk = none → s.locked = false →
      ∀ k, ¬ ((s.proc k).state = .sleeping ∧ (s.proc k).chan = true)) := by
  obtain ⟨hinv, hold⟩ : Sync.Inv s.abs ∧ Holder pid s := by
    refine run_invariant (P := fun s => Sync.Inv s.abs ∧ Holder pid s) (fun a e b hab hi => ?_) hrun
      ⟨initsleeplock_inv, initsleeplock_holder⟩
    exact ⟨inv_step hab hi.1, holder_step hab hi.1 hi.2⟩
  refine ⟨fun j k hj hk => hold.one j k (owns_of_between hj) (owns_of_between hk), fun k hk => ?_, ?_⟩
  · rw [hold.holdingsleep_iff]
    refine ⟨fun howns => ?_, owns_of_between⟩
    rcases hk with hfree | ⟨held, hpc⟩
    · refine between_of_owns howns ?_
      rw [← Bool.not_eq_true]
      intro hlk
      have := (hinv.lk k).mp hlk
      rw [show s.abs.lk = none from hfree] at this
      cases this
    · rw [hpc] at howns ⊢
      cases held with
      | true => rfl
      | false => cases howns
  · rintro hfree hunlocked k ⟨hs, -⟩
    have hcond : s.abs.cond = true := by
      change (!s.locked) = true
      rw [hunlocked]
      rfl
    obtain ⟨j, hj⟩ := hinv.owed k (.inr (.inr hs)) hcond
    have := (hinv.lk j).mp (holdsLk_of_owes hj)
    rw [show s.abs.lk = none from hfree] at this
    cases this

/-- The process ids 1 and 2. -/
def twoPids : Fin 2 ↪ Int32 := ⟨fun k => if k.val = 0 then 1 else 2, by decide⟩

/-- One process takes the lock, another one goes to sleep on it and is killed. -/
def takeAndKill : List (Event 2) :=
  List.replicate 4 (.run ⟨0, Nat.zero_lt_two⟩ false) ++
    List.replicate 7 (.run ⟨1, Nat.one_lt_two⟩ false) ++ [.kill ⟨1, Nat.one_lt_two⟩]

theorem sleeplock_excludes_two : ∃ s : Sys 2, run (step twoPids) initsleeplock takeAndKill = some s ∧
    holdingsleep twoPids s 0 = true ∧ (s.proc 1).state = .runnable ∧ s.lk = none ∧
    (holdingsleep twoPids s 1 = true ↔ (s.proc 1).pc.between = true) :=
  ⟨_, rfl, rfl, rfl, rfl, (@sleeplock_excludes 2 twoPids _ takeAndKill rfl).2.1 1 (.inl rfl)⟩

end Xv6.SleepLock
