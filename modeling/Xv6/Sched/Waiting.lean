import Xv6.Sched.Accounting

/-!
# Waiting times

Every process has run at most since it was created, so `trap()` never computes a
negative waiting time.
-/

namespace Xv6.Sched

open Table Trans

variable {pol : Policy} {s t : Sys} {e : Event} {i : Fin NPROC}

/-! ## The invariant -/

/-- The process has run at most since it was created, and its waiting time is not negative. -/
structure Proc.Waited (p : Proc) (now : Nat) : Prop where
  running : 0 ≤ p.runningT.toInt
  ctime : 0 ≤ p.ctime.toInt
  elapsed : p.ctime.toInt + p.runningT.toInt ≤ now
  waiting : 0 ≤ p.waitingT.toInt

def AllWaited (s : Sys) : Prop := ∀ i, (s.proc i).state ≠ .unused → (s.proc i).Waited s.ticks.toNat

theorem toInt_clock {n : UInt32} (h : n.toNat < 2 ^ 31) : n.toInt32.toInt = n.toNat := by
  change n.toBitVec.toInt = (n.toBitVec.toNat : Int)
  rw [BitVec.toInt_eq_toNat_cond, if_pos (by change 2 * n.toNat < 2 ^ 32; omega)]

theorem toInt_succ {a : Int32} (h0 : 0 ≤ a.toInt) (h : a.toInt < 2 ^ 31 - 1) : (a + 1).toInt = a.toInt + 1 := by
  rw [Int32.toInt_add, show (1 : Int32).toInt = 1 from rfl, Int.bmod_eq_of_le (by omega) (by omega)]

theorem ClockStep.waited (h : ClockStep pol s e t i) (hf : Family s) (hs : AllWaited s)
    (hle : s.ticks.toNat ≤ t.ticks.toNat) (hlt : t.ticks.toNat < 2 ^ 31)
    (hone : t.ticks = s.ticks + 1 → t.ticks.toNat = s.ticks.toNat + 1)
    (hu : (t.proc i).state ≠ .unused) : (t.proc i).Waited t.ticks.toNat := by
  have hcur : s.cur = some i → (s.proc i).state ≠ .unused := fun hc => by
    rw [(hf.one i).mp hc]
    rintro ⟨⟩
  cases h with
  | kept hk hc =>
    obtain ⟨h1, h2, h3, h4⟩ := hs i (mt hk hu)
    simp only [Proc.clock, Prod.mk.injEq] at hc
    obtain ⟨hc, hr, hw, -⟩ := hc
    exact ⟨hr ▸ h1, hc ▸ h2, by rw [hc, hr]; omega, hw ▸ h4⟩
  | born _ _ hc hr hw =>
    have hnow := toInt_clock (n := s.ticks) (by omega)
    have hzero : (0 : Int32).toInt = 0 := rfl
    exact ⟨by rw [hr, hzero], by rw [hc, hnow]; omega, by rw [hc, hr, hnow, hzero]; omega, by rw [hw, hzero]⟩
  | reaped _ ht => exact absurd ht hu
  | ran _ hc ht _ hclock =>
    obtain ⟨h1, h2, h3, h4⟩ := hs i (hcur hc)
    simp only [Proc.clock, Prod.mk.injEq] at hclock
    obtain ⟨hc, hr, hw, -⟩ := hclock
    have hnow := hone ht
    have hsucc := toInt_succ h1 (by omega)
    exact ⟨by rw [hr, hsucc]; omega, hc ▸ h2, by rw [hc, hr, hsucc]; omega, hw ▸ h4⟩
  | stopped hc _ hclock =>
    obtain ⟨h1, h2, h3, h4⟩ := hs i (hcur hc)
    simp only [Proc.clock, Prod.mk.injEq] at hclock
    obtain ⟨hc, hr, hw, -⟩ := hclock
    refine ⟨hr ▸ h1, hc ▸ h2, by rw [hc, hr]; omega, ?_⟩
    have hturn : ((t.ticks.toNat : Int) - (s.proc i).ctime.toInt).bmod (2 ^ 32) =
      t.ticks.toNat - (s.proc i).ctime.toInt := Int.bmod_eq_of_le (by omega) (by omega)
    rw [hw, Int32.toInt_sub, Int32.toInt_sub, toInt_clock hlt, hturn, Int.bmod_eq_of_le (by omega) (by omega)]
    omega

/-- What the process in slot `i` adds to the total. -/
def share (s : Sys) (i : Fin NPROC) : Int :=
  if (s.proc i).state = .unused then 0 else (s.proc i).runningT.toInt

theorem AllWaited.share_nonneg (hs : AllWaited s) (i : Fin NPROC) : 0 ≤ share s i := by
  unfold share
  split
  case isTrue => exact Int.le_refl 0
  case isFalse hu => exact (hs i hu).running

theorem ClockStep.share_le (h : ClockStep pol s e t i) (hf : Family s) (hs : AllWaited s)
    (hlt : t.ticks.toNat < 2 ^ 31) (hone : t.ticks = s.ticks + 1 → t.ticks.toNat = s.ticks.toNat + 1)
    (hle : s.ticks.toNat ≤ t.ticks.toNat) :
    share t i ≤ share s i + if s.cur = some i then (t.ticks.toNat : Int) - s.ticks.toNat else 0 := by
  have hpos := hs.share_nonneg i
  have hδ : 0 ≤ if s.cur = some i then (t.ticks.toNat : Int) - s.ticks.toNat else 0 := by split <;> omega
  have hused : (s.proc i).state ≠ .unused → share s i = (s.proc i).runningT.toInt := fun hu => if_neg hu
  have hcur : s.cur = some i → (s.proc i).state ≠ .unused := fun hc => by
    rw [(hf.one i).mp hc]
    rintro ⟨⟩
  by_cases hu : (t.proc i).state = .unused
  · rw [share, if_pos hu]
    omega
  rw [share, if_neg hu]
  cases h with
  | kept hk hc =>
    have hr : (t.proc i).runningT = (s.proc i).runningT := congrArg (·.2.1) hc
    rw [hr, ← hused (mt hk hu)]
    omega
  | born _ _ _ hr =>
    rw [hr, show (0 : Int32).toInt = 0 from rfl]
    omega
  | reaped _ ht => exact absurd ht hu
  | ran _ hc ht _ hclock =>
    have hr : (t.proc i).runningT = (s.proc i).runningT + 1 := congrArg (·.2.1) hclock
    obtain ⟨h1, h2, h3, -⟩ := hs i (hcur hc)
    have hnow := hone ht
    rw [hr, toInt_succ h1 (by omega), hused (hcur hc), if_pos hc, hnow]
    omega
  | stopped hc _ hclock =>
    have hr : (t.proc i).runningT = (s.proc i).runningT := congrArg (·.2.1) hclock
    rw [hr, ← hused (hcur hc)]
    omega

/-- The running times of all processes together. -/
def total (s : Sys) : Int := ∑ i, share s i

/-- Whether the clock ticks. -/
def Event.isTick (e : Event) : Bool := e = .idle .timer ∨ e = .trap .timer

theorem step_waited (h : step pol s e = some t) (hf : Family s) (hs : AllWaited s)
    (hlt : s.ticks.toNat + [e].countP Event.isTick < 2 ^ 31) :
    AllWaited t ∧ s.ticks.toNat ≤ t.ticks.toNat ∧ t.ticks.toNat ≤ s.ticks.toNat + [e].countP Event.isTick ∧
      total t ≤ total s + (t.ticks.toNat - s.ticks.toNat) := by
  have hstep := step_cases h
  have hticks := (hstep.kind hf.one).ticks
  have hcount : [e].countP Event.isTick ≤ 1 := List.countP_le_length
  have hone : t.ticks = s.ticks + 1 → t.ticks.toNat = s.ticks.toNat + 1 := by
    intro ht
    rw [ht, UInt32.toNat_add]
    exact Nat.mod_eq_of_lt (by simp; omega)
  have hadv : s.ticks.toNat ≤ t.ticks.toNat ∧ t.ticks.toNat ≤ s.ticks.toNat + [e].countP Event.isTick := by
    rcases hticks with ht | ⟨he, ht⟩
    · rw [ht]
      omega
    · rw [hone ht]
      have : [e].countP Event.isTick = 1 := by simp [Event.isTick, he]
      omega
  have hw : AllWaited t := fun i hu => (hstep.clock hf i).waited hf hs hadv.1 (by omega) hone hu
  refine ⟨hw, hadv.1, hadv.2, ?_⟩
  have hsum : total t ≤ ∑ i, (share s i + if s.cur = some i then (t.ticks.toNat : Int) - s.ticks.toNat else 0) :=
    Finset.sum_le_sum fun i _ => (hstep.clock hf i).share_le hf hs (by omega) hone hadv.1
  rw [Finset.sum_add_distrib] at hsum
  refine hsum.trans (Int.add_le_add_left ?_ _)
  cases s.cur with
  | none => simp; omega
  | some c => simp

theorem run_waited : ∀ {es : List Event} {s t : Sys}, run (step pol) s es = some t → Family s → AllWaited s →
    s.ticks.toNat + es.countP Event.isTick < 2 ^ 31 →
    Family t ∧ AllWaited t ∧ s.ticks.toNat ≤ t.ticks.toNat ∧
      t.ticks.toNat ≤ s.ticks.toNat + es.countP Event.isTick ∧ total t ≤ total s + (t.ticks.toNat - s.ticks.toNat)
  | [], s, t, h, hf, hs, _ => by
    rw [run_nil, Option.some.injEq] at h
    subst h
    exact ⟨hf, hs, by omega, by simp, by omega⟩
  | e :: es, s, t, h, hf, hs, hlt => by
    obtain ⟨u, hu, hrest⟩ := run_cons h
    rw [← List.singleton_append, List.countP_append] at hlt ⊢
    obtain ⟨hwu, h1, h2, h3⟩ := step_waited hu hf hs (by omega)
    obtain ⟨hft, hwt, h4, h5, h6⟩ := run_waited hrest (step_family hu hf).2 hwu (by omega)
    exact ⟨hft, hwt, by omega, by omega, by omega⟩

theorem boot_waited : AllWaited boot := by
  have hp := boot_proc
  intro i _
  rw [hp]
  split <;> exact ⟨by decide, by decide, by decide, by decide⟩

end Xv6.Sched
