import Xv6.Sched.Family

/-!
# Whose times a process reads

A process reads the times of its children one after the other, in the order in
which it forked them. They are stored in the order of the pids. The two agree
only if no pid is handed out to anyone else between its forks: a failed `fork()`
uses up a pid too (`times_shifted`), and the arrays are not cleared when a slot is
used again.
-/

namespace Xv6.Sched

open Table Trans

variable {pol : Policy} {s t : Sys} {e : Event} {p : Fin NPROC}

structure ExitTimes where
  running : Int32
  waiting : Int32
  turnaround : Int32
deriving DecidableEq

def Proc.exitTimes (p : Proc) : ExitTimes := ⟨p.runningT, p.waitingT, p.turnaroundT⟩

structure Children where
  /-- How many it has forked. -/
  forks : Nat
  /-- Which of them lives in a slot. -/
  kid : Fin NPROC → Option Nat
  /-- The times a child had when it exited. -/
  times : Nat → Option ExitTimes
  /-- How often the process has called `turntime()`. -/
  turns : Nat

/-- A new process has no children. -/
def Children.none : Children := ⟨0, fun _ => .none, fun _ => .none, 0⟩

/-- The history of the process in slot `p`. -/
def noteChildren (p : Fin NPROC) (s : Sys) (e : Event) (t : Sys) (g : Children) : Children :=
  if (s.proc p).state = .unused ∧ (t.proc p).state = .embryo then .none
  else
    match e, s.cur with
    | .forkDone true, some c =>
      match (s.proc c).pc with
      | .forking i =>
        if c = p then { g with forks := g.forks + 1, kid := upd g.kid i (some g.forks) } else g
      | _ => g
    | .turntime, some c => if c = p then { g with turns := g.turns + 1 } else g
    | .exit, some c =>
      if c = p then { g with kid := fun _ => .none }
      else
        match g.kid c with
        | some k => { g with
            kid := upd g.kid c .none
            times := upd g.times k (some (s.proc c).exitTimes) }
        | .none => g
    | _, _ => g

/-- What the process in slot `p` reads next is what its next child had at exit, if that
child has exited. -/
def ReadsRight (s : Sys) (p : Fin NPROC) (g : Children) : Prop :=
  ∀ v, g.times g.turns = some v →
    runtime s p = some v.running ∧ waittime s p = some v.waiting ∧
      turntime s p = some v.turnaround

/-- A `fork()` fails, and the next one succeeds. The child takes a tick and a fault, and
is reaped. -/
def failedFork : List Event :=
  [.scan, .allocproc, .forkDone false, .allocproc, .forkDone true, .wait, .scan, .trap .timer,
    .trap .fault, .exit] ++ List.replicate 64 .scan ++ [.wait]

/-- The process forks at most ten children, each gets the pid after the one before, and
no orphans are handed to it. -/
def OwnPids (p : Fin NPROC) (x : Sys × Children) (e : Event) : Prop :=
  (e = .allocproc → x.1.cur = some p →
    x.1.nextpid = (x.1.proc p).pid + 1 + Int32.ofNat x.2.forks ∧ x.2.forks < 10) ∧
  (e = .exit → p = x.1.initproc → ∀ c i, x.1.cur = some c → (x.1.proc i).parent ≠ some c)

instance (p : Fin NPROC) (x : Sys × Children) (e : Event) : Decidable (OwnPids p x e) :=
  inferInstanceAs (Decidable (_ ∧ _))

/-- The times at index `k` of the arrays of `p`. -/
def Proc.stored (p : Proc) (k : Fin 10) : ExitTimes := ⟨p.prunningT k, p.pwaitingT k, p.pturnaroundT k⟩

/-- The children of `p` that live have the pids after its own, and the arrays hold the
times of those that have exited. -/
structure Attributed (p : Fin NPROC) (s : Sys) (g : Children) : Prop where
  family : Family s
  turns : (s.proc p).pidtimes = Int32.ofNat g.turns
  known : ∀ i, (s.proc i).parent = some p → (s.proc i).state.Alive → g.kid i ≠ .none
  kid : ∀ i k, g.kid i = some k → (s.proc i).parent = some p ∧ (s.proc i).state.Alive ∧
    (s.proc i).pid = (s.proc p).pid + 1 + Int32.ofNat k ∧ k < 10
  times : ∀ k v, g.times k = some v → ∃ h : k < 10, (s.proc p).stored ⟨k, h⟩ = v
  forking : ∀ i, (s.proc p).pc = .forking i →
    (s.proc i).pid = (s.proc p).pid + 1 + Int32.ofNat g.forks ∧ g.forks < 10

theorem timesIndex_ofNat {k : Nat} (hk : k < 10) : timesIndex (Int32.ofNat k) = some ⟨k, hk⟩ := by
  have hint : (Int32.ofNat k).toInt = k := Int32.toInt_ofNat_of_lt (by omega)
  rw [timesIndex, dif_pos (by omega)]
  simp [hint]

theorem Attributed.reads {g : Children} (h : Attributed p s g) : ReadsRight s p g := by
  intro v hv
  obtain ⟨hk, hst⟩ := h.times g.turns v hv
  have hi : timesIndex (s.proc p).pidtimes = some ⟨g.turns, hk⟩ := by
    rw [h.turns, timesIndex_ofNat hk]
  simp only [runtime, waittime, turntime, hi, Option.map_some, ← hst, Proc.stored, and_self]

/-! ## Steps -/

variable {g : Children}

theorem Attributed.kid_none (h : Attributed p s g) {i : Fin NPROC}
    (hi : ¬ (s.proc i).state.Alive) : g.kid i = .none := by
  cases hk : g.kid i with
  | none => rfl
  | some k => exact absurd (h.kid i k hk).2.1 hi

theorem Calm.stored {isInit : Prop} {q r : Proc} (h : Calm isInit q r) (k : Fin 10) :
    r.stored k = q.stored k := by
  have ht := h.times
  simp only [Proc.times, Prod.mk.injEq] at ht
  simp only [Proc.stored, ht]

theorem noteChildren_still (hs : Still s t) (he : e ≠ .turntime) (hx : e ≠ .exit)
    (hf : ∀ ok, e ≠ .forkDone ok) : noteChildren p s e t g = g := by
  have hemb := (hs.slot p).embryo
  have hnot : ¬ ((s.proc p).state = .unused ∧ (t.proc p).state = .embryo) := by grind
  rw [noteChildren.eq_def, if_neg hnot]
  split
  case h_1 => exact absurd rfl (hf true)
  case h_2 => exact absurd rfl he
  case h_3 => exact absurd rfl hx
  case h_4 => rfl

theorem Attributed.still (h : Attributed p s g) (hs : Still s t) : Attributed p t g where
  family := h.family.still hs
  turns := (hs.slot p).pidtimes.trans h.turns
  known i hp ha := h.known i ((hs.slot i).parent ▸ hp) ((hs.slot i).alive.mp ha)
  kid i k hk := by
    obtain ⟨h1, h2, h3, h4⟩ := h.kid i k hk
    rw [(hs.slot i).parent, (hs.slot i).pid, (hs.slot p).pid]
    exact ⟨h1, (hs.slot i).alive.mpr h2, h3, h4⟩
  times k v hv := by
    obtain ⟨hk, hst⟩ := h.times k v hv
    exact ⟨hk, ((hs.slot p).stored _).trans hst⟩
  forking i hi := by
    rw [(hs.slot i).pid, (hs.slot p).pid]
    exact h.forking i ((hs.slot p).forking i hi)

theorem Attributed.turn (h : Attributed p s g) {c : Fin NPROC} (hcur : s.cur = some c)
    (ht : Family t) (hc : (t.proc c).pidtimes = (s.proc c).pidtimes + 1)
    (hpt : ∀ j, j ≠ c → (t.proc j).pidtimes = (s.proc j).pidtimes)
    (hf : Agree (fun q => (q.pid, q.parent, q.state, q.pc, q.stored)) s t) :
    Attributed p t (noteChildren p s .turntime t g) := by
  have hf' : ∀ j, (t.proc j).pid = (s.proc j).pid ∧ (t.proc j).parent = (s.proc j).parent ∧
      (t.proc j).state = (s.proc j).state ∧ (t.proc j).pc = (s.proc j).pc ∧
      (t.proc j).stored = (s.proc j).stored := fun j => by
    have := hf j
    simp only [Prod.mk.injEq] at this
    exact this
  have hnote : noteChildren p s .turntime t g =
      if c = p then { g with turns := g.turns + 1 } else g := by
    have hnot : ¬ ((s.proc p).state = .unused ∧ (t.proc p).state = .embryo) := by
      have := (hf' p).2.2.1
      grind
    rw [noteChildren.eq_def, if_neg hnot, hcur]
  have hkeep : ∀ g' : Children, g'.kid = g.kid → g'.times = g.times → g'.forks = g.forks →
      (t.proc p).pidtimes = Int32.ofNat g'.turns → Attributed p t g' := by
    intro g' hk htm hfk hturns
    refine ⟨ht, hturns, fun i => ?_, fun i k => ?_, fun k v => ?_, fun i => ?_⟩
    · rw [(hf' i).2.1, (hf' i).2.2.1, hk]
      exact h.known i
    · rw [(hf' i).1, (hf' i).2.1, (hf' i).2.2.1, (hf' p).1, hk]
      exact h.kid i k
    · rw [htm, (hf' p).2.2.2.2]
      exact h.times k v
    · rw [(hf' p).2.2.2.1, (hf' i).1, (hf' p).1, hfk]
      exact h.forking i
  rw [hnote]
  split
  case isTrue hcp =>
    subst hcp
    refine hkeep _ rfl rfl rfl ?_
    rw [hc, h.turns, Int32.ofNat_add]
    rfl
  case isFalse hcp => exact hkeep g rfl rfl rfl ((hpt p fun he => hcp he.symm).trans h.turns)

theorem Attributed.fresh (ht : Family t)
    (hp : (t.proc p).pidtimes = 0 ∧ (t.proc p).state = .embryo) : Attributed p t .none := by
  have hdead : ¬ (t.proc p).state.Alive := by rw [hp.2]; simp [ProcState.Alive]
  obtain ⟨_, _, hpar, hfork⟩ := ht.not_alive hdead
  refine ⟨ht, hp.1, fun i hi => absurd hi (hpar i), (by rintro _ _ ⟨⟩), (by rintro _ _ ⟨⟩), fun i hi => absurd hi (hfork i)⟩

theorem Attributed.alloc (h : Attributed p s g) {c i : Fin NPROC} (hi : i ≠ p)
    (hfree : (s.proc i).state = .unused) (ht : Family t)
    (hown : c = p → s.nextpid = (s.proc p).pid + 1 + Int32.ofNat g.forks ∧ g.forks < 10)
    (hpid : (t.proc i).pid = s.nextpid) (hemb : (t.proc i).state = .embryo)
    (hc : ∀ j, (t.proc c).pc = .forking j → j = i) (hother : Agree (fun q => (q.parent, q.stored)) s t)
    (hrest : ∀ j, j ≠ i → (t.proc j).pid = (s.proc j).pid ∧ (t.proc j).state = (s.proc j).state ∧
      (t.proc j).pidtimes = (s.proc j).pidtimes) (hpc : ∀ j, j ≠ c → (t.proc j).pc = (s.proc j).pc) :
    Attributed p t (noteChildren p s .allocproc t g) := by
  have hdead : ¬ (s.proc i).state.Alive := by rw [hfree]; simp [ProcState.Alive]
  have hother' : ∀ j, (t.proc j).parent = (s.proc j).parent ∧
      (t.proc j).stored = (s.proc j).stored := fun j => by
    have := hother j
    simp only [Prod.mk.injEq] at this
    exact this
  have hnote : noteChildren p s .allocproc t g = g := by
    have hnot : ¬ ((s.proc p).state = .unused ∧ (t.proc p).state = .embryo) := by
      have := (hrest p hi.symm).2.1
      grind
    rw [noteChildren.eq_def, if_neg hnot]
  have hp := hrest p hi.symm
  rw [hnote]
  refine ⟨ht, hp.2.2.trans h.turns, fun j hj ha => ?_, fun j k hk => ?_, fun k v hv => ?_, fun j hj => ?_⟩
  · have hji : j ≠ i := fun he => by
      rw [he, hemb] at ha
      simp [ProcState.Alive] at ha
    exact h.known j ((hother' j).1 ▸ hj) ((hrest j hji).2.1 ▸ ha)
  · have hji : j ≠ i := fun he => by
      rw [he, h.kid_none hdead] at hk
      cases hk
    rw [(hother' j).1, (hrest j hji).2.1, (hrest j hji).1, hp.1]
    exact h.kid j k hk
  · rw [(hother' p).2]
    exact h.times k v hv
  · by_cases hcp : c = p
    · subst hcp
      rw [hc j hj, hpid, hp.1]
      exact hown rfl
    · rw [hpc p fun he => hcp he.symm] at hj
      have hji : j ≠ i := fun he => by
        have := (h.family.forking p j hj).2
        rw [he, hfree] at this
        cases this
      rw [(hrest j hji).1, hp.1]
      exact h.forking j hj

theorem Attributed.forked (h : Attributed p s g) {c i : Fin NPROC} (hcur : s.cur = some c)
    (hpc : (s.proc c).pc = .forking i) (ok : Bool) :
    Attributed p (forkDone s c i ok) (noteChildren p s (.forkDone ok) (forkDone s c i ok) g) := by
  have hemb := (h.family.forking c i hpc).2
  have hdead : ¬ (s.proc i).state.Alive := by rw [hemb]; simp [ProcState.Alive]
  have hne : c ≠ i := fun he => hdead (he ▸ h.family.alive_cur hcur)
  have hf := Family.forkDone_fields (s := s) hne ok
  have hag : Agree (fun q => (q.pid, q.pidtimes, q.stored)) s (forkDone s c i ok) :=
    forkDone_agree (fun _ => rfl) (fun _ => rfl) (fun _ => rfl) ok
  have hag' : ∀ j, ((forkDone s c i ok).proc j).pid = (s.proc j).pid ∧
      ((forkDone s c i ok).proc j).pidtimes = (s.proc j).pidtimes ∧
      ((forkDone s c i ok).proc j).stored = (s.proc j).stored := fun j => by
    have := hag j
    simp only [Prod.mk.injEq] at this
    exact this
  have ht := h.family.forked hcur hpc ok
  have hkid := h.kid_none hdead
  have hnot : ¬ ((s.proc p).state = .unused ∧ ((forkDone s c i ok).proc p).state = .embryo) := by
    have := (hf p).1
    grind
  by_cases hborn : c = p ∧ ok = true
  · obtain ⟨rfl, rfl⟩ := hborn
    have hnote : noteChildren c s (.forkDone true) (forkDone s c i true) g =
        { g with forks := g.forks + 1, kid := upd g.kid i (some g.forks) } := by
      simp only [noteChildren, if_neg hnot, hcur, hpc, if_true]
    rw [hnote]
    refine ⟨ht, (hag' c).2.1.trans h.turns, fun j hj ha => ?_, fun j k hk => ?_, fun k v hv => ?_,
      fun j hj => ?_⟩
    · by_cases hji : j = i
      · simp [hji]
      · have h1 := (hf j).1
        have h2 := (hf j).2.1
        rw [if_neg hji] at h1
        rw [if_neg fun hc => hji hc.1] at h2
        simp only [upd_ne _ _ hji]
        exact h.known j (h2 ▸ hj) (h1 ▸ ha)
    · by_cases hji : j = i
      · subst hji
        simp only [upd_same, Option.some.injEq] at hk
        subst hk
        obtain ⟨hpid, hlt⟩ := h.forking j hpc
        rw [(hf j).1, (hf j).2.1, (hag' j).1, (hag' c).1]
        simp only [and_self, if_true]
        exact ⟨trivial, .inr (.inl rfl), hpid, hlt⟩
      · simp only [upd_ne _ _ hji] at hk
        rw [(hf j).1, (hf j).2.1, (hag' j).1, (hag' c).1, if_neg hji, if_neg fun hc => hji hc.1]
        exact h.kid j k hk
    · rw [(hag' c).2.2]
      exact h.times k v hv
    · rw [(hf c).2.2, if_pos rfl] at hj
      cases hj
  · have hnote : noteChildren p s (.forkDone ok) (forkDone s c i ok) g = g := by
      cases ok with
      | false => simp only [noteChildren, if_neg hnot]
      | true =>
        have hcp : c ≠ p := fun he => hborn ⟨he, rfl⟩
        simp only [noteChildren, if_neg hnot, hcur, hpc, if_neg hcp]
    rw [hnote]
    refine ⟨ht, (hag' p).2.1.trans h.turns, fun j hj ha => ?_, fun j k hk => ?_, fun k v hv => ?_,
      fun j hj => ?_⟩
    · have h1 := (hf j).1
      have h2 := (hf j).2.1
      have h3 := h.known j
      grind [ProcState.Alive]
    · have hji : j ≠ i := fun he => by
        rw [he, hkid] at hk
        cases hk
      rw [(hf j).1, (hf j).2.1, (hag' j).1, (hag' p).1, if_neg hji, if_neg fun hc => hji hc.1]
      exact h.kid j k hk
    · rw [(hag' p).2.2]
      exact h.times k v hv
    · rw [(hag' j).1, (hag' p).1]
      refine h.forking j ?_
      have h3 := (hf p).2.2
      grind

theorem Attributed.reap (h : Attributed p s g) {i : Fin NPROC} (hzombie : (s.proc i).state = .zombie)
    (ht : Family t) (hst : (t.proc i).state = .unused) (hpar : (t.proc i).parent = .none)
    (hpt : (t.proc i).pidtimes = (s.proc i).pidtimes) (hstored : (t.proc i).stored = (s.proc i).stored)
    (hpc : (t.proc i).pc = (s.proc i).pc) (hother : ∀ j, j ≠ i → t.proc j = s.proc j) :
    Attributed p t (noteChildren p s .wait t g) := by
  have hdead : ¬ (s.proc i).state.Alive := by rw [hzombie]; simp [ProcState.Alive]
  obtain ⟨_, _, hnopar, hnofork⟩ := h.family.not_alive hdead
  have hnote : noteChildren p s .wait t g = g := by
    have hnot : ¬ ((s.proc p).state = .unused ∧ (t.proc p).state = .embryo) := by
      have := hother p
      grind
    rw [noteChildren.eq_def, if_neg hnot]
  rw [hnote]
  have hpp : (t.proc p).pidtimes = (s.proc p).pidtimes ∧ (t.proc p).stored = (s.proc p).stored ∧
      (t.proc p).pc = (s.proc p).pc := by
    by_cases hpi : p = i
    · exact hpi ▸ ⟨hpt, hstored, hpc⟩
    · rw [hother p hpi]
      exact ⟨rfl, rfl, rfl⟩
  refine ⟨ht, hpp.1.trans h.turns, fun j hj ha => ?_, fun j k hk => ?_, fun k v hv => ?_,
    fun j hj => ?_⟩
  · have hji : j ≠ i := fun he => by
      rw [he, hpar] at hj
      cases hj
    rw [hother j hji] at hj ha
    exact h.known j hj ha
  · have hold := h.kid j k hk
    have hji : j ≠ i := fun he => hdead (he ▸ hold.2.1)
    have hpi : p ≠ i := fun he => hnopar j (he ▸ hold.1)
    rw [hother j hji, hother p hpi]
    exact hold
  · rw [hpp.2.1]
    exact h.times k v hv
  · rw [hpp.2.2] at hj
    have hpi : p ≠ i := fun he => hnofork j (he ▸ hj)
    have hji : j ≠ i := fun he => by
      have := (h.family.forking p j hj).2
      rw [he, hzombie] at this
      cases this
    rw [hother j hji, hother p hpi]
    exact h.forking j hj

theorem exitIndex_eq {c : Fin NPROC} {k : Nat}
    (h : (s.proc c).pid = (s.proc p).pid + 1 + Int32.ofNat k) : exitIndex s c p = Int32.ofNat k := by
  rw [exitIndex, h]
  grind

theorem Attributed.exit_rest (h : Attributed p s g) {c : Fin NPROC} (hcp : c ≠ p)
    (hinit : p = s.initproc → ∀ i, (s.proc i).parent ≠ some c)
    (ht : Family t) (hslot : ∀ j, ExitSlot s c j (t.proc j)) {kid : Fin NPROC → Option Nat}
    {times : Nat → Option ExitTimes} (hkid : kid = upd g.kid c .none)
    (htimes : ∀ k v, times k = some v → ∃ h : k < 10, (t.proc p).stored ⟨k, h⟩ = v) :
    Attributed p t { g with kid := kid, times := times } := by
  have hpid : ∀ j, (t.proc j).pid = (s.proc j).pid ∧ (t.proc j).pidtimes = (s.proc j).pidtimes ∧
      (t.proc j).pc = (s.proc j).pc := fun j => by
    rw [(hslot j).same]
    exact ⟨rfl, rfl, rfl⟩
  refine ⟨ht, (hpid p).2.1.trans h.turns, fun j hj ha => ?_, fun j k hk => ?_, htimes, fun j hj => ?_⟩
  · have hjc : j ≠ c := fun he => by
      rw [(hslot j).zombie he] at ha
      simp [ProcState.Alive] at ha
    have h1 := (hslot j).parent
    have h2 := (hslot j).state hjc
    have h3 := h.known j
    have h4 : p = s.initproc → (s.proc j).parent ≠ some c := fun he => hinit he j
    simp only [hkid, upd_ne _ _ hjc]
    grind [ProcState.Alive]
  · have hjc : j ≠ c := fun he => by
      rw [he] at hk
      simp [hkid] at hk
    simp only [hkid, upd_ne _ _ hjc] at hk
    have h1 := (hslot j).parent
    have h2 := (hslot j).state hjc
    obtain ⟨h3, h4, h5, h6⟩ := h.kid j k hk
    rw [(hpid j).1, (hpid p).1]
    refine ⟨?_, ?_, h5, h6⟩
    · grind
    · grind [ProcState.Alive]
  · rw [(hpid p).2.2] at hj
    rw [(hpid j).1, (hpid p).1]
    exact h.forking j hj

theorem Attributed.exit (h : Attributed p s g) {c : Fin NPROC} (hcur : s.cur = some c)
    (hpc : (s.proc c).pc = .exiting) (he : exitEnd s c = some t)
    (hinit : p = s.initproc → ∀ i, (s.proc i).parent ≠ some c) :
    Attributed p t (noteChildren p s .exit t g) := by
  obtain ⟨_, _, hslot⟩ := exitEnd_spec he
  have ht := h.family.exit hcur hpc he
  have halive := h.family.alive_cur hcur
  have hnot : ¬ ((s.proc p).state = .unused ∧ (t.proc p).state = .embryo) := by
    have h1 := (hslot p).state
    have h2 := (hslot p).zombie
    grind
  have hstored : (s.proc c).parent ≠ some p → ∀ k, (t.proc p).stored k = (s.proc p).stored k := by
    intro hp k
    obtain ⟨h1, h2, h3⟩ := (hslot p).times hp
    simp only [Proc.stored, h1, h2, h3]
  by_cases hcp : c = p
  · subst hcp
    have hnote : noteChildren c s .exit t g = { g with kid := fun _ => .none } := by
      simp only [noteChildren, if_neg hnot, hcur, if_true]
    -- a process that were its own parent would record its times at index -1
    have hself : (s.proc c).parent ≠ some c := fun hp => by
      obtain ⟨k, hk, _⟩ := (hslot c).record hp
      have hidx : exitIndex s c c = -1 := by
        rw [exitIndex]
        grind
      rw [hidx, show timesIndex (-1) = .none from rfl] at hk
      cases hk
    have hpid : (t.proc c).pidtimes = (s.proc c).pidtimes ∧ (t.proc c).pc = (s.proc c).pc := by
      rw [(hslot c).same]
      exact ⟨rfl, rfl⟩
    rw [hnote]
    refine ⟨ht, hpid.1.trans h.turns, fun j hj ha => ?_, (by rintro _ _ ⟨⟩), fun k v hv => ?_, fun j hj => ?_⟩
    · have hdead : ¬ (t.proc c).state.Alive := by
        rw [(hslot c).zombie rfl]
        simp [ProcState.Alive]
      exact absurd hj ((ht.not_alive hdead).2.2.1 j)
    · obtain ⟨hk, hst⟩ := h.times k v hv
      exact ⟨hk, (hstored hself _).trans hst⟩
    · rw [hpid.2, hpc] at hj
      cases hj
  · cases hk : g.kid c with
    | none =>
      have hnote : noteChildren p s .exit t g = { g with kid := upd g.kid c .none } := by
        have hsame : upd g.kid c .none = g.kid := hk ▸ upd_eq_self g.kid c
        simp only [noteChildren, if_neg hnot, hcur, if_neg hcp, hk, hsame]
      rw [hnote]
      have hp : (s.proc c).parent ≠ some p := fun hp => h.known c hp halive hk
      refine h.exit_rest hcp hinit ht hslot rfl fun k v hv => ?_
      obtain ⟨hlt, hst⟩ := h.times k v hv
      exact ⟨hlt, (hstored hp _).trans hst⟩
    | some k =>
      have hnote : noteChildren p s .exit t g = { g with
          kid := upd g.kid c .none
          times := upd g.times k (some (s.proc c).exitTimes) } := by
        simp only [noteChildren, if_neg hnot, hcur, if_neg hcp, hk]
      rw [hnote]
      obtain ⟨hp, _, hpid, hlt⟩ := h.kid c k hk
      obtain ⟨k', hk', h1, h2, h3⟩ := (hslot p).record hp
      rw [exitIndex_eq hpid, timesIndex_ofNat hlt, Option.some.injEq] at hk'
      subst hk'
      refine h.exit_rest hcp hinit ht hslot rfl fun j v hv => ?_
      by_cases hjk : j = k
      · subst hjk
        rw [upd_same, Option.some.injEq] at hv
        refine ⟨hlt, ?_⟩
        rw [← hv]
        simp only [Proc.stored, h1, h2, h3, upd_same, Proc.exitTimes]
      · rw [upd_ne _ _ hjk] at hv
        obtain ⟨hjlt, hst⟩ := h.times j v hv
        refine ⟨hjlt, ?_⟩
        have hne : (⟨j, hjlt⟩ : Fin 10) ≠ ⟨k, hlt⟩ := fun he => hjk (Fin.mk.inj he)
        rw [← hst]
        simp only [Proc.stored, h1, h2, h3, upd_ne _ _ hne]

theorem step_attributed {x y : Sys × Children}
    (h : withHistory (step pol) (noteChildren p) x e = some y) (hC : OwnPids p x e)
    (hx : Attributed p x.1 x.2) : Attributed p y.1 y.2 := by
  obtain ⟨hstep, hy⟩ := withHistory_some h
  obtain ⟨hk, ht⟩ := step_family hstep hx.family
  obtain ⟨s, g⟩ := x
  obtain ⟨t, g'⟩ := y
  dsimp only at hstep hy ht hx hk ⊢
  subst hy
  cases hk with
  | still hs he hxx hf _ =>
    rw [noteChildren_still hs he hxx hf]
    exact hx.still hs
  | @turn c hcur =>
    refine hx.turn hcur ht ?_ (fun j hj => ?_) (set_agree fun _ => rfl)
    · simp [Sys.set]
    · simp [Sys.set, hj]
  | @alloc c hcur hkernel i hfree hfirst =>
    have hci := (hx.family.not_alive (i := i) (by rw [hfree]; simp [ProcState.Alive])).2.1
    have hne : c ≠ i := fun he => hci (he ▸ hcur)
    by_cases hip : i = p
    · subst hip
      have hborn : noteChildren i s .allocproc
          { (s.set i fun p => p.alloc s.nextpid s.ticks.toInt32).set c fun p =>
            { p with pc := .forking i } with nextpid := s.nextpid + 1 } g = .none := by
        rw [noteChildren.eq_def, if_pos]
        refine ⟨hfree, ?_⟩
        simp [Sys.set, upd_apply, Proc.alloc, hne.symm]
      rw [hborn]
      refine .fresh ht ?_
      simp [Sys.set, upd_apply, Proc.alloc, hne.symm]
    · refine hx.alloc (c := c) hip hfree ht (fun hcp => hC.1 rfl (hcp ▸ hcur)) ?_ ?_ (fun j hj => ?_)
        (alloc_agree (fun _ _ _ => rfl) fun _ => rfl) (fun j hj => ?_) (fun j hj => ?_)
      · simp [Sys.set, upd_apply, Proc.alloc, hne.symm]
      · simp [Sys.set, upd_apply, Proc.alloc, hne.symm]
      · simp only [Sys.set, upd_same, Pc.forking.injEq] at hj
        exact hj.symm
      · by_cases hjc : j = c
        · subst hjc
          simp [Sys.set, hj]
        · simp [Sys.set, hj, hjc]
      · by_cases hji : j = i
        · subst hji
          simp [Sys.set, hj, Proc.alloc]
        · simp [Sys.set, hj, hji]
  | forked hcur hpc ok => exact hx.forked hcur hpc ok
  | reap hcur i hparent hzombie =>
    refine hx.reap (i := i) hzombie ht ?_ ?_ ?_ ?_ ?_ fun j hj => ?_
    · simp [Sys.set]
    · simp [Sys.set]
    · simp [Sys.set]
    · simp only [Sys.set, upd_same]
      rfl
    · simp [Sys.set]
    · simp [Sys.set, hj]
  | exit hcur hpc he => exact hx.exit hcur hpc he fun hi i => hC.2 rfl hi _ i hcur

theorem boot_attributed (p : Fin NPROC) : Attributed p boot .none := by
  have hp := boot_proc
  refine ⟨boot_family, ?_, fun i hi => ?_, nofun, nofun, fun i hi => ?_⟩
  · have h0 : (boot.proc p).pidtimes = 0 := by grind [Proc.blank]
    rw [h0]
    rfl
  · grind [Proc.blank]
  · grind [Proc.blank]

def reapedChild : List Event :=
  [.scan, .allocproc, .forkDone true, .wait, .scan, .trap .timer, .trap .fault, .exit] ++
    List.replicate 64 .scan ++ [.wait]

end Xv6.Sched
