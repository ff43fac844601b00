import Mathlib.Algebra.Group.Nat.Defs
import Mathlib.Tactic.Common
import Xv6.Lib.Trans

/-!
# Sleeping for a number of ticks

`sys_sleep` of `sysproc.c`, with what others do while it runs: the clock ticks and
wakes who sleeps on `&ticks`, and the process may be killed or woken otherwise. The
argument has been fetched. A test of the loop is made under `tickslock`, so it is one
step, as is a tick.

The loop compares `ticks - ticks0`, which is unsigned, with the `int` `n`, which is
converted: a negative `n` is a large number of ticks (`sleep_negative`).
-/

namespace Xv6.Sleep

open Trans

inductive Pc where
  | test
  /-- In `sleep(&ticks, &tickslock)`. -/
  | asleep
  | returned (r : Int)
deriving DecidableEq

structure State where
  ticks : UInt32
  killed : Bool
  pc : Pc
deriving DecidableEq

inductive Event where
  | tick
  | wakeup
  | kill
  /-- The process makes the test. -/
  | check
deriving DecidableEq

/-- A process that sleeps is woken. -/
def State.wake (s : State) : State := { s with pc := if s.pc = .asleep then .test else s.pc }

/-- The test of the loop of `sys_sleep`, and what follows it. -/
def State.check (n : Int32) (ticks0 : UInt32) (s : State) : State :=
  if s.ticks - ticks0 < n.toUInt32 then
    if s.killed then { s with pc := .returned (-1) } else { s with pc := .asleep }
  else { s with pc := .returned 0 }

def step (n : Int32) (ticks0 : UInt32) (s : State) : Event → Option State
  | .tick => some { s with ticks := s.ticks + 1 }.wake
  | .wakeup => some s.wake
  | .kill => some { s with killed := true }.wake
  | .check => if s.pc = .test then some (s.check n ticks0) else none

/-- Count the ticks since the call. -/
def noteTick (_ : State) (e : Event) (_ : State) (k : Nat) : Nat := if e = .tick then k + 1 else k

/-- The call of `sys_sleep` when the clock shows `ticks0`. -/
def call (ticks0 : UInt32) (killed : Bool) : State × Nat := (⟨ticks0, killed, .test⟩, 0)

variable {n : Int32} {ticks0 : UInt32} {killed : Bool} {x y : State × Nat} {e : Event}

/-- What the test should do after `k` ticks. They are at least `max(n, 0)` if they are at least `n`. -/
def verdict (n : Int32) (k : Nat) (killed : Bool) : Pc :=
  if n.toInt ≤ k then .returned 0 else if killed then .returned (-1) else .asleep

/-- `sleep(-1)` does not return at once. -/
theorem sleep_negative : ¬ ∀ (n : Int32) (ticks0 : UInt32) (killed : Bool) (es : List Event)
    (x y : State × Nat), run (withHistory (step n ticks0) noteTick) (call ticks0 killed) es = some x →
    withHistory (step n ticks0) noteTick x .check = some y → y.1.pc = verdict n x.2 x.1.killed := by
  intro h
  exact absurd (h (-1) 0 false [] (call 0 false) _ rfl rfl) (by decide)

/-- What holds `k` ticks after the call, unless `2 ^ 32` ticks have passed. -/
structure Counted (n : Int32) (ticks0 : UInt32) (x : State × Nat) : Prop where
  ticks : x.1.ticks = ticks0 + UInt32.ofNat x.2
  asleep : x.1.pc = .asleep → x.2 < 2 ^ 32 → (x.2 : Int) < n.toInt

theorem wake_asleep (s : State) : s.wake.pc ≠ .asleep := by
  unfold State.wake
  dsimp only
  split
  case isTrue => exact Pc.noConfusion
  case isFalse h => exact h

theorem toUInt32_toNat (hn : 0 ≤ n.toInt) : (n.toUInt32.toNat : Int) = n.toInt := by
  change 0 ≤ n.toBitVec.toInt at hn
  change (n.toBitVec.toNat : Int) = n.toBitVec.toInt
  rw [BitVec.toInt_eq_toNat_cond] at hn ⊢
  split <;> omega

theorem Counted.check (h : Counted n ticks0 x) (hn : 0 ≤ n.toInt) (hk : x.2 < 2 ^ 32) :
    (x.1.check n ticks0).pc = verdict n x.2 x.1.killed := by
  have hdiff : x.1.ticks - ticks0 = UInt32.ofNat x.2 := by
    rw [h.ticks]
    grind
  have hlt : UInt32.ofNat x.2 < n.toUInt32 ↔ (x.2 : Int) < n.toInt := by
    rw [UInt32.lt_iff_toNat_lt, UInt32.toNat_ofNat_of_lt' hk, ← toUInt32_toNat hn, Int.ofNat_lt]
  unfold State.check verdict
  simp only [hdiff, hlt]
  split
  case isTrue h =>
    rw [if_neg (Int.not_le.mpr h)]
    split <;> rfl
  case isFalse h => rw [if_pos (Int.not_lt.mp h)]

theorem step_counted (hn : 0 ≤ n.toInt) (h : withHistory (step n ticks0) noteTick x e = some y)
    (hx : Counted n ticks0 x) : Counted n ticks0 y := by
  obtain ⟨hstep, hy⟩ := withHistory_some h
  obtain ⟨t, k⟩ := y
  cases hy
  cases e with
  | tick =>
    cases hstep
    refine ⟨?_, fun hc => absurd hc (wake_asleep _)⟩
    change x.1.ticks + 1 = ticks0 + UInt32.ofNat (x.2 + 1)
    rw [hx.ticks, UInt32.ofNat_add]
    grind
  | wakeup =>
    cases hstep
    exact ⟨hx.ticks, fun hc => absurd hc (wake_asleep _)⟩
  | kill =>
    cases hstep
    exact ⟨hx.ticks, fun hc => absurd hc (wake_asleep _)⟩
  | check =>
    obtain ⟨-, hcheck⟩ := Option.ite_none_right_eq_some.mp hstep
    obtain rfl : x.1.check n ticks0 = t := Option.some.inj hcheck
    refine ⟨?_, fun hc hk => ?_⟩
    · have hticks : (x.1.check n ticks0).ticks = x.1.ticks := by
        unfold State.check
        split
        case isTrue => split <;> rfl
        case isFalse => rfl
      exact hticks.trans hx.ticks
    · -- the process has just found that too few ticks have passed
      have hv := (hx.check hn hk).symm.trans hc
      unfold verdict at hv
      split at hv
      case isTrue => cases hv
      case isFalse hno => exact Int.not_le.mp hno

/-- At every test `sys_sleep` returns 0 if `n` ticks have passed since the call, and -1 only if they
have not and the process was killed. It never sleeps when they have. -/
theorem sleep_lasts (hn : 0 ≤ n.toInt) {es : List Event}
    (hrun : run (withHistory (step n ticks0) noteTick) (call ticks0 killed) es = some x)
    (hticks : x.2 < 2 ^ 32) :
    (∀ y, withHistory (step n ticks0) noteTick x .check = some y → y.1.pc = verdict n x.2 x.1.killed) ∧
      (x.1.pc = .asleep → (x.2 : Int) < n.toInt) := by
  have hx : Counted n ticks0 x := run_invariant (fun _ _ _ h hs => step_counted hn h hs) hrun
    ⟨by simp [call], fun hc => by cases hc⟩
  refine ⟨fun y hy => ?_, fun hc => hx.asleep hc hticks⟩
  obtain ⟨hstep, -⟩ := withHistory_some hy
  obtain ⟨-, hcheck⟩ := Option.ite_none_right_eq_some.mp hstep
  rw [← Option.some.inj hcheck]
  exact hx.check hn hticks

/-- A sleep of one tick, in which the counter wraps around. -/
theorem sleep_lasts_wrap : ∃ x y, run (withHistory (step 1 (-1)) noteTick) (call (-1) false)
    [.check, .tick] = some x ∧ withHistory (step 1 (-1)) noteTick x .check = some y ∧
    y.1.pc = verdict 1 1 false := by
  have hrun : run (withHistory (step 1 (-1)) noteTick) (call (-1) false) [.check, .tick] =
    some (⟨0, false, .test⟩, 1) := by decide
  exact ⟨_, _, hrun, rfl, (sleep_lasts (by decide) hrun (by decide)).1 _ rfl⟩

end Xv6.Sleep
