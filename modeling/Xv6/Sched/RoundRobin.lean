import Xv6.Sched.Life

/-!
# Bounded bypass

The scheduler scans the table from slot to slot and starts again at slot 0, and it goes
on after the process it ran. `Sys.pos` is the slot it looks at next, also while a
process runs. Only the scan moves it (`lifeStep_pos`), and it does not move past a
`RUNNABLE` process without switching to it.

So while a process `p` waits, `RUNNABLE`, the slots switched to lie in the order of the
scan between the slot where it stood at the beginning and `p` (`Served`), and none of
them is switched to twice.
-/

namespace Xv6.Sched

open Table Scan Trans

variable {pol : Policy} {s t : Sys} {e : Event}

/-- The slot the scheduler looks at next, when it gets the CPU again. -/
def Sys.pos (s : Sys) : Nat := if s.cur.isSome then s.scan + 1 else s.scan

variable {c : Fin NPROC}

theorem Sys.pos_cur (h : s.cur = some c) : s.pos = s.scan + 1 := by
  simp [Sys.pos, h]

theorem Sys.pos_none (h : s.cur = none) : s.pos = s.scan := by
  simp [Sys.pos, h]

theorem pos_leave (h : s.cur = some c) (hscan : t.scan = s.scan) : t.leave.pos = s.pos := by
  rw [Sys.pos_cur h, Sys.pos_none rfl, Sys.leave, hscan]

theorem pos_same (hc : t.cur = s.cur) (hscan : t.scan = s.scan) : t.pos = s.pos := by
  rw [Sys.pos, Sys.pos, hc, hscan]

theorem handle_scan (s : Sys) (c : Option (Fin NPROC)) (no : TrapNo) : (handle s c no).scan = s.scan := by
  cases no with
  | timer => rfl
  | device n => rfl
  | fault =>
    cases c with
    | none => rfl
    | some c => rfl

theorem onTick_pos (h : s.cur = some c) : (onTick pol s c).pos = s.pos := by
  cases pol with
  | default => exact pos_leave h rfl
  | frr =>
    simp only [onTick]
    split
    · exact pos_leave h rfl
    · rfl
  | fcfs => rfl

theorem Step.pos (h : Step pol s e t) (he : e ≠ .scan) (hx : e ≠ .exit) : t.pos = s.pos := by
  cases h with
  | pass hcur n => exact absurd rfl he
  | dispatch hcur p hscan hrun => exact absurd rfl he
  | idle hcur hno => exact pos_same (handle_cur s _ _) (handle_scan s _ _)
  | trap hcur hstay => exact pos_same (handle_cur s _ _) (handle_scan s _ _)
  | tick hcur hlive =>
    rw [onTick_pos ((handle_cur s _ _).trans hcur)]
    exact pos_same (handle_cur s _ _) (handle_scan s _ _)
  | forced hcur hinit hkilled huser => exact pos_same (handle_cur s _ _) (handle_scan s _ _)
  | resume hcur hy => rfl
  | resumeForced hcur hy hinit hkilled huser => rfl
  | enter hcur huser => rfl
  | leave hcur hkernel => rfl
  | quit hcur hinit he hpc => rfl
  | alloc hcur hkernel j hfree hfirst => rfl
  | forked hcur hpc ok => rfl
  | reap hcur j hparent hzombie => rfl
  | killed hcur pid j => rfl
  | sleep hcur he => exact pos_leave hcur rfl
  | wakeup hcur chan => rfl
  | skip hcur he => rfl
  | turn hcur => rfl
  | exit hcur hpc ht => exact absurd rfl hx

theorem lifeStep_pos (h : lifeStep pol s e = some t) (he : e ≠ .scan) : t.pos = s.pos := by
  cases lifeStep_cases h with
  | step hst hst' hx hsleep => exact hst.pos he hx
  | skip hcur he => rfl
  | turn hcur => rfl
  | @exit c hcur hpc =>
    have hx := exitLife_spec s c
    rw [Sys.pos_cur hcur, Sys.pos_none hx.cur, hx.scan]

/-- The slot a step switches to. -/
def switched (s : Sys) (e : Event) : Option (Fin NPROC) :=
  if e = .scan ∧ s.cur = none then
    if h : s.scan < NPROC then
      if (s.proc ⟨s.scan, h⟩).state = .runnable then some ⟨s.scan, h⟩ else none
    else none
  else none

/-- One step of the scan: it goes on to the next slot, or starts again, or switches. -/
inductive ScanMove (s t : Sys) : Option (Fin NPROC) → Prop where
  | next (q : Fin NPROC) (hpos : s.pos = q.val) (hskip : (s.proc q).state ≠ .runnable)
      (ht : t.pos = q.val + 1) : ScanMove s t none
  | again (hpos : NPROC ≤ s.pos) (ht : t.pos = 0) : ScanMove s t none
  | switch (q : Fin NPROC) (hpos : s.pos = q.val) (ht : t.pos = q.val + 1)
      (hrun : (t.proc q).state = .running) : ScanMove s t (some q)

theorem scan_move (hcur : s.cur = none) : ScanMove s (scanStep pol s) (switched s .scan) := by
  rw [scanStep, switched, if_pos ⟨rfl, hcur⟩]
  split
  case isTrue h =>
    split
    case isTrue hr =>
      rw [choose_eq]
      refine .switch ⟨s.scan, h⟩ (Sys.pos_none hcur) (Sys.pos_cur rfl) ?_
      simp [dispatch, Sys.set]
    case isFalse hr => exact .next ⟨s.scan, h⟩ (Sys.pos_none hcur) hr (Sys.pos_none hcur)
  case isFalse h => exact .again (by rw [Sys.pos_none hcur]; omega) (Sys.pos_none hcur)

theorem lifeStep_scan (h : lifeStep pol s .scan = some t) : s.cur = none ∧ t = scanStep pol s := by
  change step pol s .scan = some t at h
  rw [step.eq_def] at h
  cases hcur : s.cur with
  | none =>
    rw [hcur] at h
    exact ⟨rfl, (Option.some.inj h).symm⟩
  | some c =>
    rw [hcur] at h
    dsimp only at h
    split at h
    case isTrue => cases h
    case isFalse =>
      cases hpc : (s.proc c).pc <;> rw [procStep.eq_def, hpc] at h <;> cases h

/-! ## A process that waits -/

/-- The slots of `l` were switched to, in the order of the scan from `x` to the position `pos`,
while `p` waited. Either the scan has not started again since, or it has and is not yet at `p`. -/
structure Served (x : Nat) (p : Fin NPROC) (pos : Nat) (l : List (Fin NPROC)) : Prop where
  nodup : l.Nodup
  place : (x ≤ pos ∧ (p.val < x ∨ pos ≤ p.val) ∧ ∀ d ∈ l, x ≤ d.val ∧ d.val < pos) ∨
    (pos ≤ p.val ∧ p.val < x ∧ ∀ d ∈ l, x ≤ d.val ∨ d.val < pos)

variable {x : Nat} {p : Fin NPROC} {l : List (Fin NPROC)}

theorem Served.next {q : Fin NPROC} (h : Served x p q.val l) (hq : q ≠ p) : Served x p (q.val + 1) l := by
  have hne : q.val ≠ p.val := fun he => hq (Fin.ext he)
  refine ⟨h.nodup, ?_⟩
  rcases h.place with ⟨hx, hp, hl⟩ | ⟨hp, hx, hl⟩
  · exact .inl ⟨by omega, by omega, fun d hd => ⟨(hl d hd).1, by have := (hl d hd).2; omega⟩⟩
  · exact .inr ⟨by omega, hx, fun d hd => (hl d hd).imp_right fun h => by omega⟩

theorem Served.again {pos : Nat} (h : Served x p pos l) (hpos : NPROC ≤ pos) : Served x p 0 l := by
  have := p.isLt
  refine ⟨h.nodup, .inr ?_⟩
  rcases h.place with ⟨hx, hp, hl⟩ | ⟨hp, hx, hl⟩
  · exact ⟨by omega, by omega, fun d hd => .inl (hl d hd).1⟩
  · omega

theorem Served.switch {q : Fin NPROC} (h : Served x p q.val l)
    (hq : q ≠ p) : Served x p (q.val + 1) (q :: l) := by
  have hne : q.val ≠ p.val := fun he => hq (Fin.ext he)
  have hnext := h.next hq
  have hfresh : q ∉ l := by
    intro hmem
    rcases h.place with ⟨hx, hp, hl⟩ | ⟨hp, hx, hl⟩
    · have := (hl q hmem).2
      omega
    · have := hl q hmem
      omega
  refine ⟨List.nodup_cons.mpr ⟨hfresh, h.nodup⟩, ?_⟩
  rcases h.place with ⟨hx, hp, hl⟩ | ⟨hp, hx, hl⟩
  · refine .inl ⟨by omega, by omega, fun d hd => ?_⟩
    rcases List.mem_cons.mp hd with rfl | hd
    · omega
    · have := hl d hd
      omega
  · refine .inr ⟨by omega, hx, fun d hd => ?_⟩
    rcases List.mem_cons.mp hd with rfl | hd
    · omega
    · have := hl d hd
      omega

/-- The slots switched to, the last one first. -/
def noteSwitch (s : Sys) (e : Event) (_ : Sys) (l : List (Fin NPROC)) : List (Fin NPROC) :=
  (switched s e).elim l fun q => q :: l

/-- The machine with the slots it has switched to. -/
def switching (pol : Policy) : Sys × List (Fin NPROC) → Event → Option (Sys × List (Fin NPROC)) :=
  withHistory (lifeStep pol) noteSwitch

def Waits (p : Fin NPROC) (s : Sys) : Prop := (s.proc p).state = .runnable

instance (p : Fin NPROC) (s : Sys) : Decidable (Waits p s) :=
  inferInstanceAs (Decidable ((s.proc p).state = .runnable))

theorem served_step {a b : Sys × List (Fin NPROC)}
    (hstep : switching pol a e = some b) (hwait : Waits p a.1) (hwait' : Waits p b.1) (h : Served x p a.1.pos a.2) :
    Served x p b.1.pos b.2 := by
  obtain ⟨hs, hl⟩ := withHistory_some hstep
  rw [hl, noteSwitch]
  by_cases he : e = .scan
  · subst he
    obtain ⟨hcur, ht⟩ := lifeStep_scan hs
    have hmove : ScanMove a.1 (scanStep pol a.1) (switched a.1 .scan) := scan_move hcur
    rw [← ht] at hmove
    generalize switched a.1 .scan = o at hmove ⊢
    cases hmove with
    | next q hpos hskip ht =>
      rw [hpos] at h
      rw [ht]
      exact h.next fun hq => hskip (hq ▸ hwait)
    | again hpos ht =>
      rw [ht]
      exact h.again hpos
    | switch q hpos ht hrun =>
      rw [hpos] at h
      rw [ht]
      refine h.switch fun hq => ?_
      rw [hq] at hrun
      exact absurd (hwait'.symm.trans hrun) (by decide)
  · have hnone : switched a.1 e = none := by
      rw [switched, if_neg fun h => he h.1]
    rw [hnone, lifeStep_pos hs he]
    exact h

theorem served_run : ∀ {es : List Event} {a b : Sys × List (Fin NPROC)}, run (switching pol) a es = some b →
      Always (lifeStep pol) (fun u _ => Waits p u) a.1 es → Waits p b.1 →
      Served x p a.1.pos a.2 → Served x p b.1.pos b.2
  | [], a, b, h, _, _, hserved => by
    rw [run_nil, Option.some.injEq] at h
    exact h ▸ hserved
  | e :: es, a, b, h, ⟨ha, hwait⟩, hend, hserved => by
    obtain ⟨c, hc, hrest⟩ := run_cons h
    have hs := (withHistory_some hc).1
    rw [hs] at hwait
    have hc' : Waits p c.1 := by
      -- the first state of the rest of the run, or its only one
      cases es with
      | nil =>
        rw [run_nil, Option.some.injEq] at hrest
        exact hrest ▸ hend
      | cons f fs => exact hwait.1
    exact served_run hrest hwait hend (served_step hc ha hc' hserved)

/-- While a process stays `RUNNABLE`, no slot of the table is switched to more than once, under
any policy and from any state. -/
theorem bounded_bypass {s t : Sys} {p : Fin NPROC} {es : List Event} {l : List (Fin NPROC)}
    (hrun : run (switching pol) (s, []) es = some (t, l))
    (hwait : Always (lifeStep pol) (fun u _ => Waits p u) s es) (hend : Waits p t) : l.Nodup := by
  have hstart : Served s.pos p s.pos [] := by
    refine ⟨List.nodup_nil, .inl ⟨Nat.le_refl _, Nat.lt_or_ge _ _, ?_⟩⟩
    rintro d ⟨⟩
  exact (served_run hrun hwait hend hstart).nodup

/-- `init` makes two children and yields, and the first child runs while the second one waits. -/
theorem bounded_bypass_two : ∃ s x, run (lifeStep .frr) boot
      [.scan, .allocproc, .forkDone true, .allocproc, .forkDone true, .sleep .ticks] = some s ∧
    run (switching .frr) (s, []) [.scan, .sysEntry, .sleep (.other 0)] = some x ∧
    x.2 = [1] ∧ x.2.Nodup := by
  obtain ⟨s, x, hs, hx, hl, hwait, hend⟩ : ∃ s x, run (lifeStep .frr) boot
        [.scan, .allocproc, .forkDone true, .allocproc, .forkDone true, .sleep .ticks] = some s ∧
      run (switching .frr) (s, []) [.scan, .sysEntry, .sleep (.other 0)] = some x ∧ x.2 = [1] ∧
      Always (lifeStep .frr) (fun u _ => Waits 2 u) s [.scan, .sysEntry, .sleep (.other 0)] ∧
      Waits 2 x.1 := ⟨_, _, rfl, rfl, by decide +kernel⟩
  exact ⟨s, x, hs, hx, hl, bounded_bypass hx hwait hend⟩

end Xv6.Sched
