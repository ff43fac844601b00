import Xv6.Lib.Table
import Xv6.Lib.Trans
import Mathlib.Tactic.Common

/-!
# No lost wakeup

`sleep()` and `wakeup()` of `proc.c`, one acquire, release, assignment or slot of the
table at a time. Any number of processes share a lock `lk`, a channel and a condition
that `lk` protects. A consumer acquires `lk`, tests the condition and calls
`sleep(chan, &lk)` in a loop while it is false. A producer acquires `lk`, makes the
condition true and calls `wakeup(chan)`, before it releases `lk` or after.

A process in `sleep()` holds `ptable.lock` from before it releases `lk` until it is
`SLEEPING`, so a producer that makes the condition true after the test scans the table
when the process is asleep. The invariant says who owes the wakeup: if the condition is
true and a consumer sleeps, some producer has made it true and its scan has not passed
the consumer's slot (`Pc.Owes`).
-/

namespace Xv6.Sync

open Table Trans

/-- Where a process stands, by what it does next. -/
inductive Pc where
  /-- `acquire(&lk)`, as a consumer or as a producer. -/
  | idle
  | test
  /-- A consumer that found the condition true, and may make it false. -/
  | work
  /-- In `sleep()`: `acquire(&ptable.lock)`. -/
  | sleepAcquire
  /-- `release(lk)`. -/
  | sleepRelease
  /-- `p->chan = chan`. -/
  | sleepChan
  /-- `p->state = SLEEPING`. -/
  | sleepState
  /-- `sched()`: the scheduler gets the CPU and `ptable.lock`, which it releases. -/
  | sleepSched
  /-- Off the CPU: the scheduler acquires `ptable.lock` and switches to the process. -/
  | parked
  /-- `p->chan = 0`. -/
  | tidy
  /-- `release(&ptable.lock)`. -/
  | tidied
  /-- `acquire(lk)`, the end of `sleep()`. -/
  | relock
  /-- A producer that makes the condition true. -/
  | make
  /-- It is to call `wakeup(chan)`, or to release `lk` first. -/
  | made
  /-- In `wakeup()`, with `lk` held or not: `acquire(&ptable.lock)`. -/
  | wakeAcquire (held : Bool)
  /-- `wakeup1` at slot `i`. -/
  | scan (held : Bool) (i : Nat)
  /-- `release(&ptable.lock)`. -/
  | wakeRelease (held : Bool)
  /-- `release(&lk)`. -/
  | unlock
deriving DecidableEq

inductive PState where
  | sleeping
  | runnable
  | running
deriving DecidableEq

structure Proc where
  pc : Pc
  state : PState
  /-- `p->chan` is the channel. -/
  chan : Bool

/-- The processes, one for each slot of the table. -/
structure Sys (n : Nat) where
  /-- Who holds `lk`. -/
  lk : Option (Fin n)
  /-- Who holds `ptable.lock`. -/
  ptable : Option (Fin n)
  cond : Bool
  proc : Fin n → Proc

variable {n : Nat}

def boot (cond : Bool) : Sys n := ⟨none, none, cond, fun _ => ⟨.idle, .running, false⟩⟩

def Sys.goto (s : Sys n) (k : Fin n) (pc : Pc) : Sys n :=
  { s with proc := upd s.proc k { s.proc k with pc := pc } }

/-- What `wakeup1` does to one slot. -/
def Proc.wake (p : Proc) : Proc :=
  if p.state = .sleeping ∧ p.chan = true then { p with state := .runnable } else p

def Sys.wakeSlot (s : Sys n) (i : Fin n) : Sys n := { s with proc := upd s.proc i (s.proc i).wake }

/-- The next step of process `k`. `choice` decides where the program may do either of two
things. -/
def step (s : Sys n) (e : Fin n × Bool) : Option (Sys n) :=
  let k := e.1
  let choice := e.2
  match (s.proc k).pc with
  | .idle =>
    if s.lk = none then
      some { s.goto k (if choice then .make else .test) with lk := some k }
    else none
  | .test => some (s.goto k (if s.cond then .work else .sleepAcquire))
  | .work => some { s.goto k .unlock with cond := choice }
  | .sleepAcquire =>
    if s.ptable = none then some { s.goto k .sleepRelease with ptable := some k } else none
  | .sleepRelease => some { s.goto k .sleepChan with lk := none }
  | .sleepChan => some { s with proc := upd s.proc k ⟨.sleepState, (s.proc k).state, true⟩ }
  | .sleepState => some { s with proc := upd s.proc k ⟨.sleepSched, .sleeping, (s.proc k).chan⟩ }
  | .sleepSched => some { s.goto k .parked with ptable := none }
  | .parked =>
    if (s.proc k).state = .runnable ∧ s.ptable = none then
      some { s with ptable := some k, proc := upd s.proc k ⟨.tidy, .running, (s.proc k).chan⟩ }
    else none
  | .tidy => some { s with proc := upd s.proc k ⟨.tidied, (s.proc k).state, false⟩ }
  | .tidied => some { s.goto k .relock with ptable := none }
  | .relock => if s.lk = none then some { s.goto k .test with lk := some k } else none
  | .make => some { s.goto k .made with cond := true }
  | .made =>
    if choice then some (s.goto k (.wakeAcquire true))
    else some { s.goto k (.wakeAcquire false) with lk := none }
  | .wakeAcquire held =>
    if s.ptable = none then some { s.goto k (.scan held 0) with ptable := some k } else none
  | .scan held i =>
    if h : i < n then some ((s.wakeSlot ⟨i, h⟩).goto k (.scan held (i + 1)))
    else some (s.goto k (.wakeRelease held))
  | .wakeRelease held => some { s.goto k (if held then .unlock else .idle) with ptable := none }
  | .unlock => some { s.goto k .idle with lk := none }

/-! ## The invariant -/

def Pc.holdsLk : Pc → Bool
  | .test | .work | .sleepAcquire | .sleepRelease | .make | .made | .unlock => true
  | .wakeAcquire held | .scan held _ | .wakeRelease held => held
  | _ => false

def Pc.holdsPtable : Pc → Bool
  | .sleepRelease | .sleepChan | .sleepState | .sleepSched | .tidy | .tidied => true
  | .scan _ _ | .wakeRelease _ => true
  | _ => false

/-- A producer has made the condition true and its `wakeup` has still to come to slot `k`. -/
def Pc.Owes (k : Nat) : Pc → Prop
  | .made => True
  | .wakeAcquire _ => True
  | .scan _ i => i ≤ k
  | _ => False

/-- The process has released `lk` in order to sleep, and is not awake again. -/
def Proc.Committed (p : Proc) : Prop := p.pc = .sleepChan ∨ p.pc = .sleepState ∨ p.state = .sleeping

structure Inv (s : Sys n) : Prop where
  lk : ∀ k, (s.proc k).pc.holdsLk = true ↔ s.lk = some k
  ptable : ∀ k, (s.proc k).pc.holdsPtable = true ↔ s.ptable = some k
  asleep : ∀ k, (s.proc k).state = .sleeping →
    (s.proc k).chan = true ∧ ((s.proc k).pc = .sleepSched ∨ (s.proc k).pc = .parked)
  onChan : ∀ k, (s.proc k).pc = .sleepState → (s.proc k).chan = true
  tested : ∀ k, (s.proc k).pc = .sleepAcquire ∨ (s.proc k).pc = .sleepRelease → s.cond = false
  working : ∀ k, (s.proc k).pc = .work → s.cond = true
  owed : ∀ k, (s.proc k).Committed → s.cond = true → ∃ j, (s.proc j).pc.Owes k

theorem inv_boot (cond : Bool) : Inv (boot cond : Sys n) := by
  constructor
  · intro k
    simp [boot, Pc.holdsLk]
  · intro k
    simp [boot, Pc.holdsPtable]
  · rintro k ⟨⟩
  · rintro k ⟨⟩
  · rintro k (⟨⟨⟩⟩ | ⟨⟨⟩⟩)
  · rintro k ⟨⟩
  · rintro k (⟨⟨⟩⟩ | ⟨⟨⟩⟩ | ⟨⟨⟩⟩)

/-- What a step of `k` does with a lock, which `k` holds before the step if `own` and after it
if `own'`: it leaves it alone, acquires it when it is free, or releases it. -/
inductive Handover (k : Fin n) (own own' : Bool) (l l' : Option (Fin n)) : Prop where
  | keep (h : own' = own) (hl : l' = l)
  | take (h : own' = true) (hl : l = none) (hl' : l' = some k)
  | drop (h : own = true) (h' : own' = false) (hl' : l' = none)

variable {k : Fin n} {p : Proc}

theorem Handover.holds {own own' : Bool} {l l' : Option (Fin n)} {holds : Pc → Bool}
    {proc : Fin n → Proc} (hand : Handover k own own' l l')
    (hown : holds (proc k).pc = own) (hown' : holds p.pc = own')
    (h : ∀ j, holds (proc j).pc = true ↔ l = some j) (j : Fin n) :
    holds (upd proc k p j).pc = true ↔ l' = some j := by
  have hk := h k
  have hj := h j
  rw [upd_apply]
  cases hand with
  | keep he hl => grind
  | take he hl hl' => grind
  | drop he he' hl' => grind

variable {s t : Sys n}

theorem Inv.move (h : Inv s) (hproc : t.proc = upd s.proc k p)
    (hlk : Handover k (s.proc k).pc.holdsLk p.pc.holdsLk s.lk t.lk)
    (hpt : Handover k (s.proc k).pc.holdsPtable p.pc.holdsPtable s.ptable t.ptable)
    (hcond : t.cond = s.cond ∨ (s.proc k).pc.holdsLk = true)
    (hasleep : p.state = .sleeping → p.chan = true ∧ (p.pc = .sleepSched ∨ p.pc = .parked))
    (honChan : p.pc = .sleepState → p.chan = true)
    (htested : p.pc = .sleepAcquire ∨ p.pc = .sleepRelease → t.cond = false)
    (hworking : p.pc = .work → t.cond = true) (hcommit : p.Committed → t.cond = true → (s.proc k).Committed)
    (howes : t.cond = true → (∀ i, p.pc.Owes i) ∨
      s.cond = true ∧ ∀ i : Fin n, (s.proc i).Committed → (s.proc k).pc.Owes i → p.pc.Owes i) : Inv t := by
  have hslot : ∀ j, t.proc j = if j = k then p else s.proc j := fun j => by rw [hproc, upd_apply]
  -- the condition changes only under `lk`, and another process at the tests would hold it too
  have hsame : ∀ j, j ≠ k → (s.proc j).pc.holdsLk = true → t.cond = s.cond := by
    intro j hj hjlk
    refine hcond.resolve_right fun hklk => hj ?_
    have h₁ := (h.lk j).mp hjlk
    have h₂ := (h.lk k).mp hklk
    rw [h₁] at h₂
    exact Option.some.inj h₂
  constructor
  · intro j
    rw [hproc]
    exact hlk.holds rfl rfl h.lk j
  · intro j
    rw [hproc]
    exact hpt.holds rfl rfl h.ptable j
  · intro j
    rw [hslot]
    split
    · exact hasleep
    · exact h.asleep j
  · intro j
    rw [hslot]
    split
    · exact honChan
    · exact h.onChan j
  · intro j
    rw [hslot]
    split
    · exact htested
    · rename_i hj
      intro hpc
      have hheld : (s.proc j).pc.holdsLk = true := by
        rcases hpc with he | he
        · rw [he]; rfl
        · rw [he]; rfl
      rw [hsame j hj hheld]
      exact h.tested j hpc
  · intro j
    rw [hslot]
    split
    · exact hworking
    · rename_i hj
      intro hpc
      rw [hsame j hj (by rw [hpc]; rfl)]
      exact h.working j hpc
  · intro j hj htrue
    have hj' : (s.proc j).Committed := by
      rw [hslot] at hj
      split at hj
      · rename_i hjk
        rw [hjk]
        exact hcommit hj htrue
      · exact hj
    rcases howes htrue with hall | ⟨hstrue, hmono⟩
    · refine ⟨k, ?_⟩
      rw [hslot, if_pos rfl]
      exact hall j
    · obtain ⟨i, hi⟩ := h.owed j hj' hstrue
      refine ⟨i, ?_⟩
      rw [hslot]
      split
      · rename_i hik
        rw [hik] at hi
        exact hmono j hj' hi
      · exact hi

theorem Inv.wakeSlot (h : Inv s) (i : Fin n) : Inv (s.wakeSlot i) := by
  have hpc : ∀ j, ((s.wakeSlot i).proc j).pc = (s.proc j).pc ∧
      ((s.wakeSlot i).proc j).chan = (s.proc j).chan ∧
      (((s.wakeSlot i).proc j).state = .sleeping → (s.proc j).state = .sleeping) := by
    intro j
    simp only [Sys.wakeSlot, upd_apply, Proc.wake]
    grind
  constructor
  · intro j
    rw [(hpc j).1]
    exact h.lk j
  · intro j
    rw [(hpc j).1]
    exact h.ptable j
  · intro j hj
    rw [(hpc j).1, (hpc j).2.1]
    exact h.asleep j ((hpc j).2.2 hj)
  · intro j hj
    rw [(hpc j).1] at hj
    rw [(hpc j).2.1]
    exact h.onChan j hj
  · intro j hj
    rw [(hpc j).1] at hj
    exact h.tested j hj
  · intro j hj
    rw [(hpc j).1] at hj
    exact h.working j hj
  · intro j hj htrue
    have hj' : (s.proc j).Committed := by
      unfold Proc.Committed at hj ⊢
      rw [(hpc j).1] at hj
      exact hj.imp_right (.imp_right (hpc j).2.2)
    obtain ⟨m, hm⟩ := h.owed j hj' htrue
    refine ⟨m, ?_⟩
    rw [(hpc m).1]
    exact hm

theorem Inv.not_committed (h : Inv s) {held : Bool} {m : Nat}
    (hpc : (s.proc k).pc = .scan held m) (i : Fin n) : ¬ ((s.wakeSlot i).proc i).Committed := by
  have hk : s.ptable = some k := (h.ptable k).mp (by rw [hpc]; rfl)
  have hsleep : ∀ pc, pc.holdsPtable = true → (∀ held m, pc ≠ .scan held m) → (s.proc i).pc ≠ pc := by
    rintro pc hpt hne rfl
    have hi := (h.ptable i).mp hpt
    rw [hk] at hi
    rw [← Option.some.inj hi] at hne
    exact hne held m hpc
  rw [Proc.Committed]
  simp only [Sys.wakeSlot, upd_same, Proc.wake]
  rintro (hc | hc | hc)
  · split at hc
    · exact hsleep _ rfl (by rintro _ _ ⟨⟩) hc
    · exact hsleep _ rfl (by rintro _ _ ⟨⟩) hc
  · split at hc
    · exact hsleep _ rfl (by rintro _ _ ⟨⟩) hc
    · exact hsleep _ rfl (by rintro _ _ ⟨⟩) hc
  · split at hc
    · cases hc
    · rename_i hno
      exact hno ⟨hc, (h.asleep i hc).1⟩

theorem Inv.awake (h : Inv s) {pc : Pc} (hpc : (s.proc k).pc = pc)
    (h₁ : pc ≠ .sleepSched) (h₂ : pc ≠ .parked) : (s.proc k).state ≠ .sleeping := by
  intro hs
  rcases (h.asleep k hs).2 with he | he
  · exact h₁ (hpc.symm.trans he)
  · exact h₂ (hpc.symm.trans he)

/-- What a process that is awake must know of the condition to be at a place. -/
def Pc.Knows (cond : Bool) : Pc → Prop
  | .sleepAcquire | .sleepRelease | .sleepChan => cond = false
  | .work => cond = true
  | .sleepState => False
  | _ => True

variable {pc : Pc}

theorem Inv.advance (h : Inv s) (hpc : (s.proc k).pc = pc) (hproc : t.proc = upd s.proc k p)
    (hawake : p.state ≠ .sleeping) (hlk : Handover k pc.holdsLk p.pc.holdsLk s.lk t.lk)
    (hpt : Handover k pc.holdsPtable p.pc.holdsPtable s.ptable t.ptable)
    (hcond : t.cond = s.cond ∨ pc.holdsLk = true) (hknows : p.pc.Knows t.cond)
    (howes : t.cond = true → (∀ i, p.pc.Owes i) ∨
      s.cond = true ∧ ∀ i : Fin n, (s.proc i).Committed → pc.Owes i → p.pc.Owes i) : Inv t := by
  subst hpc
  refine h.move hproc hlk hpt hcond (fun hs => absurd hs hawake) (fun hc => ?_) (fun hc => ?_)
    (fun hc => ?_) (fun hc ht => ?_) howes
  · rw [hc] at hknows
    exact hknows.elim
  · rcases hc with hc | hc <;> rw [hc] at hknows <;> exact hknows
  · rw [hc] at hknows
    exact hknows
  · rcases hc with hc | hc | hc
    · rw [hc, ht] at hknows
      cases hknows
    · rw [hc] at hknows
      exact hknows.elim
    · exact absurd hc hawake

theorem Inv.plain (h : Inv s) (hpc : (s.proc k).pc = pc) (hproc : t.proc = upd s.proc k p)
    (hawake : p.state ≠ .sleeping) (hlk : Handover k pc.holdsLk p.pc.holdsLk s.lk t.lk)
    (hpt : Handover k pc.holdsPtable p.pc.holdsPtable s.ptable t.ptable) (hcond : t.cond = s.cond)
    (hknows : p.pc.Knows t.cond) (howes : ∀ i, ¬ pc.Owes i) : Inv t :=
  h.advance hpc hproc hawake hlk hpt (.inl hcond) hknows
    fun ht => .inr ⟨hcond ▸ ht, fun i _ hi => absurd hi (howes i)⟩

theorem inv_step {e : Fin n × Bool} (hstep : step s e = some t) (h : Inv s) : Inv t := by
  obtain ⟨k, choice⟩ := e
  cases hpc : (s.proc k).pc <;> simp only [step, hpc] at hstep
  case idle =>
    have hawake := h.awake hpc nofun nofun
    obtain ⟨hfree, ⟨⟩⟩ := Option.ite_none_right_eq_some.mp hstep
    cases choice with
    | true => exact h.plain hpc rfl hawake (.take rfl hfree rfl) (.keep rfl rfl) rfl trivial fun _ => id
    | false => exact h.plain hpc rfl hawake (.take rfl hfree rfl) (.keep rfl rfl) rfl trivial fun _ => id
  case test =>
    have hawake := h.awake hpc nofun nofun
    cases hstep
    cases hcond : s.cond with
    | true => exact h.plain hpc rfl hawake (.keep rfl rfl) (.keep rfl rfl) rfl hcond fun _ => id
    | false => exact h.plain hpc rfl hawake (.keep rfl rfl) (.keep rfl rfl) rfl hcond fun _ => id
  case work =>
    cases hstep
    exact h.advance hpc rfl (h.awake hpc nofun nofun) (.keep rfl rfl) (.keep rfl rfl) (.inr rfl) trivial
      fun _ => .inr ⟨h.working k hpc, fun _ _ => False.elim⟩
  case sleepAcquire =>
    obtain ⟨hfree, ⟨⟩⟩ := Option.ite_none_right_eq_some.mp hstep
    exact h.plain hpc rfl (h.awake hpc nofun nofun) (.keep rfl rfl) (.take rfl hfree rfl) rfl
      (h.tested k (.inl hpc)) fun _ => id
  case sleepRelease =>
    cases hstep
    exact h.plain hpc rfl (h.awake hpc nofun nofun) (.drop rfl rfl rfl) (.keep rfl rfl) rfl
      (h.tested k (.inr hpc)) fun _ => id
  case sleepChan =>
    cases hstep
    refine h.move rfl (.keep ?_ rfl) (.keep ?_ rfl) (.inl rfl)
      (fun hs => absurd hs (h.awake hpc nofun nofun)) (fun _ => rfl) ?_ nofun (fun _ _ => .inl hpc)
      fun ht => .inr ⟨ht, ?_⟩
    · rw [hpc]; rfl
    · rw [hpc]; rfl
    · rintro (⟨⟨⟩⟩ | ⟨⟨⟩⟩)
    · rw [hpc]
      exact fun _ _ => False.elim
  case sleepState =>
    cases hstep
    refine h.move rfl (.keep ?_ rfl) (.keep ?_ rfl) (.inl rfl) (fun _ => ⟨h.onChan k hpc, .inl rfl⟩)
      nofun ?_ nofun (fun _ _ => .inr (.inl hpc)) fun ht => .inr ⟨ht, ?_⟩
    · rw [hpc]; rfl
    · rw [hpc]; rfl
    · rintro (⟨⟨⟩⟩ | ⟨⟨⟩⟩)
    · rw [hpc]
      exact fun _ _ => False.elim
  case sleepSched =>
    cases hstep
    refine h.move rfl (.keep ?_ rfl) (.drop ?_ rfl rfl) (.inl rfl)
      (fun hs => ⟨(h.asleep k hs).1, .inr rfl⟩) nofun ?_ nofun ?_ fun ht => .inr ⟨ht, ?_⟩
    · rw [hpc]; rfl
    · rw [hpc]; rfl
    · rintro (⟨⟨⟩⟩ | ⟨⟨⟩⟩)
    · rintro (⟨⟨⟩⟩ | ⟨⟨⟩⟩ | hs) _
      exact .inr (.inr hs)
    · rw [hpc]
      exact fun _ _ => False.elim
  case parked =>
    obtain ⟨⟨-, hfree⟩, ⟨⟩⟩ := Option.ite_none_right_eq_some.mp hstep
    exact h.plain hpc rfl nofun (.keep rfl rfl) (.take rfl hfree rfl) rfl trivial fun _ => id
  case tidy =>
    cases hstep
    exact h.plain hpc rfl (h.awake hpc nofun nofun) (.keep rfl rfl) (.keep rfl rfl) rfl trivial fun _ => id
  case tidied =>
    cases hstep
    exact h.plain hpc rfl (h.awake hpc nofun nofun) (.keep rfl rfl) (.drop rfl rfl rfl) rfl trivial fun _ => id
  case relock =>
    obtain ⟨hfree, ⟨⟩⟩ := Option.ite_none_right_eq_some.mp hstep
    exact h.plain hpc rfl (h.awake hpc nofun nofun) (.take rfl hfree rfl) (.keep rfl rfl) rfl trivial fun _ => id
  case make =>
    cases hstep
    exact h.advance hpc rfl (h.awake hpc nofun nofun) (.keep rfl rfl) (.keep rfl rfl) (.inr rfl) trivial
      fun _ => .inl fun _ => trivial
  case made =>
    have hawake := h.awake hpc nofun nofun
    cases choice with
    | true =>
      cases hstep
      exact h.advance hpc rfl hawake (.keep rfl rfl) (.keep rfl rfl) (.inl rfl) trivial
        fun _ => .inl fun _ => trivial
    | false =>
      cases hstep
      exact h.advance hpc rfl hawake (.drop rfl rfl rfl) (.keep rfl rfl) (.inl rfl) trivial
        fun _ => .inl fun _ => trivial
  case wakeAcquire held =>
    obtain ⟨hfree, ⟨⟩⟩ := Option.ite_none_right_eq_some.mp hstep
    exact h.advance hpc rfl (h.awake hpc nofun nofun) (.keep rfl rfl) (.take rfl hfree rfl) (.inl rfl) trivial
      fun _ => .inl fun i => Nat.zero_le i
  case scan held m =>
    split at hstep
    case isTrue hm =>
      cases hstep
      have hw := h.wakeSlot ⟨m, hm⟩
      have hpc' : ((s.wakeSlot ⟨m, hm⟩).proc k).pc = .scan held m := by
        rw [← hpc]
        simp only [Sys.wakeSlot, upd_apply, Proc.wake]
        grind
      have hwoken := h.not_committed hpc ⟨m, hm⟩
      refine hw.advance hpc' rfl (hw.awake hpc' nofun nofun) (.keep rfl rfl) (.keep rfl rfl) (.inl rfl) trivial
        fun ht => .inr ⟨ht, fun i hi howes => ?_⟩
      have hne : m ≠ i.val := by
        rintro rfl
        exact hwoken hi
      exact Nat.lt_of_le_of_ne howes hne
    case isFalse hm =>
      cases hstep
      exact h.advance hpc rfl (h.awake hpc nofun nofun) (.keep rfl rfl) (.keep rfl rfl) (.inl rfl) trivial
        fun ht => .inr ⟨ht, fun i _ howes => absurd (Nat.lt_of_le_of_lt howes i.isLt) hm⟩
  case wakeRelease held =>
    have hawake := h.awake hpc nofun nofun
    cases hstep
    cases held with
    | true => exact h.plain hpc rfl hawake (.keep rfl rfl) (.drop rfl rfl rfl) rfl trivial fun _ => id
    | false => exact h.plain hpc rfl hawake (.keep rfl rfl) (.drop rfl rfl rfl) rfl trivial fun _ => id
  case unlock =>
    cases hstep
    exact h.plain hpc rfl (h.awake hpc nofun nofun) (.drop rfl rfl rfl) (.keep rfl rfl) rfl trivial fun _ => id

/-! ## Runs -/

theorem step_holder (h : (s.proc k).pc.holdsPtable = true) :
    (s.proc k).pc ≠ .idle ∧ (step s (k, true)).isSome = true := by
  cases hpc : (s.proc k).pc <;> simp only [hpc, Pc.holdsPtable, Bool.false_eq_true] at h
  case scan held m =>
    simp only [step, hpc]
    refine ⟨by rintro ⟨⟩, ?_⟩
    split
    · rfl
    · rfl
  all_goals
    simp only [step, hpc]
    exact ⟨by rintro ⟨⟩, rfl⟩

theorem Inv.goes_on (h : Inv s) {j : Fin n} {k : Nat} (howes : (s.proc j).pc.Owes k) :
    ∃ i, (s.proc i).pc ≠ .idle ∧ (step s (i, true)).isSome = true := by
  cases hpc : (s.proc j).pc <;> rw [hpc] at howes
  case made =>
    refine ⟨j, by rw [hpc]; rintro ⟨⟩, ?_⟩
    simp only [step, hpc]
    rfl
  case wakeAcquire held =>
    cases hpt : s.ptable with
    | none =>
      refine ⟨j, by rw [hpc]; rintro ⟨⟩, ?_⟩
      simp only [step, hpc, hpt]
      rfl
    | some i => exact ⟨i, step_holder ((h.ptable i).mpr hpt)⟩
  case scan held m => exact ⟨j, step_holder (by rw [hpc]; rfl)⟩
  all_goals cases howes

/-- In every interleaving, a process sleeps although the condition is true only while some
producer has made it true and has still to wake the process up. So no run ends, with every
process outside its loop or blocked, with a process asleep and the condition true. -/
theorem no_lost_wakeup {cond : Bool} {es : List (Fin n × Bool)} {s : Sys n}
    (hrun : run step (boot cond) es = some s) :
    (∀ k, (s.proc k).state = .sleeping → s.cond = true → ∃ j, (s.proc j).pc.Owes k) ∧
    ((∀ k choice, (s.proc k).pc ≠ .idle → step s (k, choice) = none) → s.cond = true →
      ∀ k, (s.proc k).state ≠ .sleeping) := by
  have h : Inv s := run_invariant (fun _ _ _ => inv_step) hrun (inv_boot cond)
  have howed : ∀ k, (s.proc k).state = .sleeping → s.cond = true → ∃ j, (s.proc j).pc.Owes k :=
    fun k hs => h.owed k (.inr (.inr hs))
  refine ⟨howed, fun hend hcond k hs => ?_⟩
  obtain ⟨j, hj⟩ := howed k hs hcond
  obtain ⟨i, hi, hgo⟩ := h.goes_on hj
  rw [hend i true hi] at hgo
  cases hgo

/-- A consumer goes to sleep, and a producer makes the condition true and releases the lock. -/
theorem no_lost_wakeup_two : ∃ s : Sys 2, run step (boot false)
      (List.replicate 7 (0, false) ++ [(1, true), (1, true), (1, false)]) = some s ∧
    (s.proc 0).state = .sleeping ∧ s.cond = true ∧ s.lk = none ∧ ∃ j, (s.proc j).pc.Owes 0 :=
  ⟨_, rfl, rfl, rfl, rfl, (@no_lost_wakeup 2 false
    (List.replicate 7 (0, false) ++ [(1, true), (1, true), (1, false)]) _ rfl).1 0 rfl rfl⟩

end Xv6.Sync
