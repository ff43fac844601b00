import Xv6.Sched.Life

/-!
# The life of a process

What holds of the processes in every run, with the arrays of times left aside and as
long as `nextpid` has not wrapped around: pids are positive and distinct, every process
but `init` has a living parent, no process sleeps in `wait()` over a dead child, and a
zombie is reaped once, by the `wait()` of its parent that returns its pid.
-/

namespace Xv6.Sched

open Table Scan Trans

variable {pol : Policy} {s t u : Sys} {e : Event}

/-! ## `wait()` -/

/-- The dead child that `wait()` finds. -/
def zombieChild (s : Sys) (c : Fin NPROC) : Option (Fin NPROC) :=
  firstFin fun i => decide ((s.proc i).parent = some c ∧ (s.proc i).state = .zombie)

/-- What one pass of the loop of `wait()` returns, if it does not sleep. -/
def waitRet (s : Sys) (c : Fin NPROC) : Option Int32 :=
  match zombieChild s c with
  | some i => some (s.proc i).pid
  | none =>
    if (firstFin fun i => decide ((s.proc i).parent = some c)).isNone ∨ (s.proc c).killed then
      some (-1)
    else none

/-- A slot that `wait()` has freed. -/
def Proc.reaped (p : Proc) : Proc :=
  { p with pid := 0, parent := none, killed := false, ctime := 0, state := .unused }

theorem lifeStep_wait (h : lifeStep pol s .wait = some t) : ∃ c, s.cur = some c ∧ t = wait s c := by
  change step pol s .wait = some t at h
  rw [step.eq_def] at h
  cases hcur : s.cur with
  | none =>
    rw [hcur] at h
    cases h
  | some c =>
    rw [hcur] at h
    dsimp only at h
    split at h
    case isTrue => cases h
    case isFalse =>
      refine ⟨c, rfl, ?_⟩
      cases hpc : (s.proc c).pc <;> rw [procStep.eq_def, hpc] at h <;> cases h
      case kernel.refl => rfl

/-- The three ends of a pass of `wait()`. -/
inductive WaitEnds (s : Sys) (c : Fin NPROC) : Option Int32 → Sys → Prop where
  | reap (i : Fin NPROC) (hparent : (s.proc i).parent = some c)
      (hzombie : (s.proc i).state = .zombie) :
      WaitEnds s c (some (s.proc i).pid) (s.set i Proc.reaped)
  | fail (hno : (∀ i, (s.proc i).parent ≠ some c) ∨ (s.proc c).killed = true) :
      WaitEnds s c (some (-1)) s
  | sleep (hnone : ∀ i, (s.proc i).parent = some c → (s.proc i).state ≠ .zombie) :
      WaitEnds s c none (sleep s c (.proc c))

theorem wait_ends (s : Sys) (c : Fin NPROC) : WaitEnds s c (waitRet s c) (wait s c) := by
  rw [wait, waitRet]
  change WaitEnds s c _ (match zombieChild s c with | some i => _ | none => _)
  cases hz : zombieChild s c with
  | some i =>
    obtain ⟨hp, hst⟩ := of_decide_eq_true (firstFin_some hz)
    exact .reap i hp hst
  | none =>
    dsimp only
    split
    case isTrue hno =>
      refine .fail (hno.imp_left fun h i hi => ?_)
      exact of_decide_eq_false (firstFin_none (Option.isNone_iff_eq_none.mp h) i) hi
    case isFalse =>
      exact .sleep fun i hi hzom => of_decide_eq_false (firstFin_none hz i) ⟨hi, hzom⟩

/-! ## Histories -/

structure History where
  /-- The calls of `allocproc`, the one of `userinit` included. -/
  allocs : Nat
  /-- The pids returned by `wait()`, the last one first. -/
  reaped : List Int32

def History.init : History := ⟨1, []⟩

def noteLife (s : Sys) (e : Event) (_ : Sys) (h : History) : History :=
  match e with
  | .allocproc => { h with allocs := h.allocs + 1 }
  | .wait =>
    match s.cur.bind (waitRet s) with
    | some r => if r = -1 then h else { h with reaped := r :: h.reaped }
    | none => h
  | _ => h

/-- The machine with the history of its run. -/
def living (pol : Policy) : Sys × History → Event → Option (Sys × History) :=
  withHistory (lifeStep pol) noteLife

/-! ## Pids -/

/-- The pids in use and the pids returned by `wait()`. -/
structure Pids (s : Sys) (h : History) : Prop where
  next : 2 ≤ s.nextpid.toInt ∧ s.nextpid.toInt ≤ 1 + h.allocs
  used : ∀ i, (s.proc i).state ≠ .unused → 0 < (s.proc i).pid.toInt ∧ (s.proc i).pid < s.nextpid
  distinct : ∀ i j, (s.proc i).state ≠ .unused → (s.proc j).state ≠ .unused →
    (s.proc i).pid = (s.proc j).pid → i = j
  gone : ∀ r ∈ h.reaped, r < s.nextpid ∧ ∀ i, (s.proc i).state ≠ .unused → (s.proc i).pid ≠ r
  nodup : h.reaped.Nodup

variable {h : History}

theorem Pids.same (hp : Pids s h) (hnext : t.nextpid = s.nextpid) (hslot : ∀ i, (t.proc i).state ≠ .unused →
      (s.proc i).state ≠ .unused ∧ (t.proc i).pid = (s.proc i).pid) : Pids t h where
  next := by
    rw [hnext]
    exact hp.next
  used i hi := by
    obtain ⟨hs, he⟩ := hslot i hi
    rw [hnext, he]
    exact hp.used i hs
  distinct i j hi hj hij := by
    obtain ⟨hs, he⟩ := hslot i hi
    obtain ⟨hs', he'⟩ := hslot j hj
    exact hp.distinct i j hs hs' (by rw [← he, ← he', hij])
  gone r hr := by
    obtain ⟨hlt, hno⟩ := hp.gone r hr
    rw [hnext]
    refine ⟨hlt, fun i hi => ?_⟩
    obtain ⟨hs, he⟩ := hslot i hi
    rw [he]
    exact hno i hs
  nodup := hp.nodup

theorem Pids.more (hp : Pids s h) : Pids s { h with allocs := h.allocs + 1 } where
  next := ⟨hp.next.1, by have := hp.next.2; push_cast; omega⟩
  used := hp.used
  distinct := hp.distinct
  gone := hp.gone
  nodup := hp.nodup

variable {i : Fin NPROC}

theorem Pids.reap (hp : Pids s h) (hz : (s.proc i).state = .zombie) :
    Pids (s.set i Proc.reaped) { h with reaped := (s.proc i).pid :: h.reaped } := by
  have hused : (s.proc i).state ≠ .unused := by rw [hz]; decide
  have hother : ∀ j, ((s.set i Proc.reaped).proc j).state ≠ .unused →
      j ≠ i ∧ (s.set i Proc.reaped).proc j = s.proc j := by
    intro j hj
    simp only [Sys.set, upd_apply] at hj ⊢
    split at hj
    · exact absurd rfl hj
    · rename_i hji
      exact ⟨hji, if_neg hji⟩
  have hsame : Pids (s.set i Proc.reaped) h := by
    refine hp.same rfl fun j hj => ?_
    have he := (hother j hj).2
    rw [he] at hj ⊢
    exact ⟨hj, rfl⟩
  refine ⟨hp.next, hsame.used, hsame.distinct, ?_, ?_⟩
  · intro r hr
    rcases List.mem_cons.mp hr with rfl | hr
    · refine ⟨(hp.used i hused).2, fun j hj heq => ?_⟩
      obtain ⟨hji, he⟩ := hother j hj
      rw [he] at hj heq
      exact hji (hp.distinct j i hj hused heq)
    · exact hsame.gone r hr
  · refine List.nodup_cons.mpr ⟨fun hmem => ?_, hp.nodup⟩
    exact (hp.gone _ hmem).2 i hused rfl

theorem Pids.alloc {h : History} (hp : Pids s h) (hfew : h.allocs + 1 < 2 ^ 31 - 1) {i : Fin NPROC}
    (hnext : t.nextpid = s.nextpid + 1) (hi : (t.proc i).pid = s.nextpid)
    (hslot : ∀ j, j ≠ i → (t.proc j).state = (s.proc j).state ∧ (t.proc j).pid = (s.proc j).pid) :
    Pids t { h with allocs := h.allocs + 1 } := by
  obtain ⟨hlo, hhi⟩ := hp.next
  have hsucc : (s.nextpid + 1).toInt = s.nextpid.toInt + 1 := by
    rw [Int32.toInt_add, Int32.toInt_one]
    simp only [Int.bmod]
    omega
  have hlt : ∀ {r : Int32}, r < s.nextpid → r < s.nextpid + 1 := by
    intro r hr
    rw [Int32.lt_iff_toInt_lt] at hr ⊢
    omega
  have hne : ∀ {r : Int32}, r < s.nextpid → r ≠ s.nextpid := by
    rintro r hr rfl
    rw [Int32.lt_iff_toInt_lt] at hr
    omega
  have hused : ∀ j, j ≠ i → (t.proc j).state ≠ .unused →
      0 < (t.proc j).pid.toInt ∧ (t.proc j).pid < s.nextpid := by
    intro j hj hst
    obtain ⟨he, hpid⟩ := hslot j hj
    rw [he] at hst
    rw [hpid]
    exact hp.used j hst
  refine ⟨?_, ?_, ?_, ?_, hp.nodup⟩
  · rw [hnext, hsucc]
    push_cast
    omega
  · intro j hj
    rw [hnext]
    by_cases hji : j = i
    · rw [hji, hi, Int32.lt_iff_toInt_lt]
      omega
    · exact ⟨(hused j hji hj).1, hlt (hused j hji hj).2⟩
  · intro j k hj hk hjk
    by_cases hji : j = i
    · by_cases hki : k = i
      · rw [hji, hki]
      · exact absurd (by rw [← hjk, hji, hi]) (hne (hused k hki hk).2)
    · by_cases hki : k = i
      · exact absurd (by rw [hjk, hki, hi]) (hne (hused j hji hj).2)
      · obtain ⟨he, hpid⟩ := hslot j hji
        obtain ⟨he', hpid'⟩ := hslot k hki
        rw [he] at hj
        rw [he'] at hk
        rw [hpid, hpid'] at hjk
        exact hp.distinct j k hj hk hjk
  · intro r hr
    obtain ⟨hr1, hr2⟩ := hp.gone r hr
    rw [hnext]
    refine ⟨hlt hr1, fun j hj => ?_⟩
    by_cases hji : j = i
    · rw [hji, hi]
      exact (hne hr1).symm
    · obtain ⟨he, hpid⟩ := hslot j hji
      rw [he] at hj
      rw [hpid]
      exact hr2 j hj

theorem noteLife_allocs (h : History) : h.allocs ≤ (noteLife s e t h).allocs := by
  cases e with
  | allocproc => exact Nat.le_succ _
  | wait =>
    simp only [noteLife]
    split
    · split
      · exact Nat.le_refl _
      · exact Nat.le_refl _
    · exact Nat.le_refl _
  | scan | idle | trap | resume | sysEntry | sysReturn | sysExit | forkDone | kill | sleep | wakeup
    | runtime | waittime | turntime | exit => exact Nat.le_refl _

theorem LifeKind.pids (hk : LifeKind s e t) (hf : Family s) (hp : Pids s h)
    (ha : e ≠ .allocproc) : Pids t h := by
  cases hk with
  | still hs _ hx =>
    refine hp.same hs.nextpid fun i hi => ?_
    exact ⟨fun h => hi ((hs.slot i).unused.mpr h), (hs.slot i).pid⟩
  | @turn c hcur =>
    have hst : Agree Proc.state s (s.set c fun p => { p with pidtimes := p.pidtimes + 1 }) :=
      set_agree fun _ => rfl
    have hpid : Agree Proc.pid s (s.set c fun p => { p with pidtimes := p.pidtimes + 1 }) :=
      set_agree fun _ => rfl
    exact hp.same rfl fun i hi => ⟨fun h => hi ((hst i).trans h), hpid i⟩
  | alloc => exact absurd rfl ha
  | @forked c i hcur hpc ok =>
    refine hp.same rfl fun j hj => ?_
    have hemb := (hf.forking c i hpc).2
    simp only [forkDone, Sys.set, upd_apply] at hj ⊢
    grind
  | reap hcur i hparent hzombie =>
    refine hp.same rfl fun j hj => ?_
    simp only [Sys.set, upd_apply] at hj ⊢
    grind
  | @exit c hcur hpc =>
    have hx := exitLife_spec s c
    refine hp.same hx.globals.nextpid fun j hj => ?_
    refine ⟨fun h => ?_, by rw [hx.slot]⟩
    have hr := (hf.one c).mp hcur
    by_cases hjc : j = c
    · rw [hjc, hr] at h
      cases h
    · have := hx.state j hjc
      grind

theorem pids_step (hstep : lifeStep pol s e = some t) (hf : Family s) (hp : Pids s h)
    (hfew : (noteLife s e t h).allocs < 2 ^ 31 - 1) : Pids t (noteLife s e t h) := by
  have hk := (life_family hstep hf).1
  cases e with
  | allocproc =>
    cases hk with
    | still hs _ hx =>
      refine (hp.same hs.nextpid fun i hi => ?_).more
      exact ⟨fun h => hi ((hs.slot i).unused.mpr h), (hs.slot i).pid⟩
    | alloc hcur hkernel i hfree =>
      refine hp.alloc hfew (i := i) rfl ?_ fun j hj => ?_
      · simp only [Sys.set, upd_apply, Proc.alloc]
        grind
      · simp only [Sys.set, upd_apply, Proc.alloc]
        grind
  | wait =>
    obtain ⟨c, hcur, rfl⟩ := lifeStep_wait hstep
    simp only [noteLife, hcur, Option.bind_some]
    have hends := wait_ends s c
    generalize waitRet s c = o at hends ⊢
    generalize wait s c = t at hends hk
    cases hends with
    | reap i hparent hzombie =>
      have hpos := (hp.used i (by rw [hzombie]; decide)).1
      have hne : (s.proc i).pid ≠ -1 := by
        intro he
        rw [he] at hpos
        exact absurd hpos (by decide)
      dsimp only
      rw [if_neg hne]
      exact hp.reap hzombie
    | fail hno => exact hp
    | sleep hnone => exact hk.pids hf hp (by rintro ⟨⟩)
  | scan | idle | trap | resume | sysEntry | sysReturn | sysExit | forkDone | kill | sleep | wakeup
    | runtime | waittime | turntime | exit => exact hk.pids hf hp (by rintro ⟨⟩)

/-! ## Who sleeps -/

/-- Whoever sleeps in `t` slept in `s`, on the same channel. -/
def Sleepy (s t : Sys) : Prop := ∀ j, (t.proc j).state = .sleeping →
  (s.proc j).state = .sleeping ∧ (t.proc j).chan = (s.proc j).chan

theorem Sleepy.trans (h : Sleepy s t) (h' : Sleepy t u) : Sleepy s u := by
  intro j hj
  obtain ⟨h₁, h₂⟩ := h' j hj
  obtain ⟨h₃, h₄⟩ := h j h₁
  exact ⟨h₃, h₂.trans h₄⟩

theorem set_sleepy {c : Fin NPROC} {f : Proc → Proc}
    (hf : ∀ p, (f p).state = .sleeping → p.state = .sleeping ∧ (f p).chan = p.chan) :
    Sleepy s (s.set c f) := by
  intro j hj
  simp only [Sys.set, upd_apply] at hj ⊢
  split at hj
  · rename_i hjc
    rw [if_pos hjc, hjc]
    exact hf _ hj
  · rename_i hjc
    rw [if_neg hjc]
    exact ⟨hj, rfl⟩

theorem Woken.sleepy (h : Woken s t) : Sleepy s t := by
  intro j hj
  refine ⟨?_, by rw [h.slot]⟩
  rcases h.state j with hst | ⟨-, hst⟩
  · rw [← hst, hj]
  · rw [hj] at hst
    cases hst

theorem handle_sleepy (c : Option (Fin NPROC)) (no : TrapNo) : Sleepy s (handle s c no) := by
  cases no with
  | timer => exact (wakeup1_woken { s with ticks := s.ticks + 1 } .ticks).sleepy
  | device n => exact (wakeup1_woken s (.other n)).sleepy
  | fault =>
    cases c with
    | none => exact fun j hj => ⟨hj, rfl⟩
    | some c =>
      simp only [handle, Option.elim]
      exact set_sleepy fun p hp => by exact ⟨hp, rfl⟩

theorem yield_sleepy (c : Fin NPROC) : Sleepy s (yield s c) := by
  have h : Sleepy s (s.set c fun p => { p with state := .runnable, yielded := true }) :=
    set_sleepy fun p hp => by cases hp
  exact h

theorem onTick_sleepy (c : Fin NPROC) : Sleepy s (onTick pol s c) := by
  cases pol with
  | default => exact yield_sleepy c
  | frr =>
    simp only [onTick]
    split
    · have h : Sleepy s (s.set c fun p => { p with slot := 0 }) := set_sleepy fun p hp => by exact ⟨hp, rfl⟩
      exact h.trans (yield_sleepy c)
    · exact set_sleepy fun p hp => by exact ⟨hp, rfl⟩
  | fcfs =>
    simp only [onTick]
    exact set_sleepy fun p hp => by exact ⟨hp, rfl⟩

theorem Step.sleepy (h : Step pol s e t) (hx : e ≠ .exit) : Sleepy s t ∨
    ∃ c chan, s.cur = some c ∧ t = Sched.sleep s c chan ∧
      (e = .wait ∧ WaitSleeps s c ∨ e = .sleep chan) := by
  cases h with
  | pass hcur n => exact .inl fun j hj => ⟨hj, rfl⟩
  | dispatch hcur p hscan hrun =>
    have h : Sleepy s (s.set p fun q => { q with state := .running, chan := none }) :=
      set_sleepy fun p hp => by cases hp
    exact .inl h
  | idle hcur hno => exact .inl (handle_sleepy _ _)
  | trap hcur hstay => exact .inl (handle_sleepy _ _)
  | tick hcur hlive => exact .inl ((handle_sleepy _ _).trans (onTick_sleepy _))
  | forced hcur hinit hkilled huser =>
    exact .inl ((handle_sleepy _ _).trans (set_sleepy fun p hp => by exact ⟨hp, rfl⟩))
  | resume hcur hy => exact .inl (set_sleepy fun p hp => by exact ⟨hp, rfl⟩)
  | @resumeForced c hcur hy hinit hkilled huser =>
    have h : Sleepy s (s.set c fun p => { p with yielded := false }) :=
      set_sleepy fun p hp => by exact ⟨hp, rfl⟩
    exact .inl (h.trans (set_sleepy fun p hp => by exact ⟨hp, rfl⟩))
  | enter hcur huser => exact .inl (set_sleepy fun p hp => by exact ⟨hp, rfl⟩)
  | leave hcur hkernel => exact .inl (set_sleepy fun p hp => by exact ⟨hp, rfl⟩)
  | quit hcur hinit he hpc => exact .inl (set_sleepy fun p hp => by exact ⟨hp, rfl⟩)
  | @alloc c hcur hkernel i hfree hfirst =>
    have h₁ : Sleepy s (s.set i fun p => p.alloc s.nextpid s.ticks.toInt32) :=
      set_sleepy fun p hp => by cases hp
    have h₂ : Sleepy s ((s.set i fun p => p.alloc s.nextpid s.ticks.toInt32).set c fun p =>
        { p with pc := .forking i }) := h₁.trans (set_sleepy fun p hp => by exact ⟨hp, rfl⟩)
    exact .inl h₂
  | @forked c i hcur hpc ok =>
    refine .inl (Sleepy.trans (set_sleepy fun p hp => ?_) (set_sleepy fun p hp => by exact ⟨hp, rfl⟩))
    cases ok with
    | true => cases hp
    | false => cases hp
  | reap hcur j hparent hzombie => exact .inl (set_sleepy fun p hp => by cases hp)
  | killed hcur pid j =>
    refine .inl (set_sleepy fun p hp => ?_)
    dsimp only at hp
    split at hp
    · cases hp
    · exact ⟨hp, rfl⟩
  | @sleep c e hcur chan he => exact .inr ⟨c, chan, hcur, rfl, he⟩
  | wakeup hcur chan => exact .inl (wakeup1_woken s chan).sleepy
  | skip hcur he => exact .inl fun j hj => ⟨hj, rfl⟩
  | turn hcur => exact .inl (set_sleepy fun p hp => by exact ⟨hp, rfl⟩)
  | exit hcur hpc ht => exact absurd rfl hx

/-! ## Parents -/

/-- A slot of the table is in use and not half made. -/
def ProcState.Made (st : ProcState) : Prop := st ≠ .unused ∧ st ≠ .embryo

/-- The process `c` sleeps in `wait()`. -/
def InWait (s : Sys) (c : Fin NPROC) : Prop :=
  (s.proc c).state = .sleeping ∧ (s.proc c).chan = some (.proc c)

/-- Everyone but `init` has a parent, nobody is their own, and no one waits over a dead child. -/
structure Lineage (s : Sys) : Prop where
  init : (s.proc s.initproc).parent = none
  self : ∀ i, (s.proc i).parent ≠ some i
  has : ∀ i, i ≠ s.initproc → (s.proc i).state.Made → (s.proc i).parent ≠ none
  waits : ∀ c i, InWait s c → (s.proc i).parent = some c → (s.proc i).state ≠ .zombie

theorem Lineage.same (h : Lineage s) (hin : t.initproc = s.initproc)
    (hp : ∀ i, (t.proc i).parent = (s.proc i).parent)
    (hmade : ∀ i, (t.proc i).state.Made → (s.proc i).state.Made)
    (hz : ∀ i, (t.proc i).state = .zombie → (s.proc i).state = .zombie)
    (hw : ∀ c, InWait t c → InWait s c ∨ ∀ i, (s.proc i).parent = some c → (s.proc i).state ≠ .zombie) :
    Lineage t where
  init := by
    rw [hin, hp]
    exact h.init
  self i := by
    rw [hp]
    exact h.self i
  has i hi hst := by
    rw [hp]
    rw [hin] at hi
    exact h.has i hi (hmade i hst)
  waits c i hc hpar hzom := by
    rw [hp] at hpar
    rcases hw c hc with hs | hs
    · exact h.waits c i hs hpar (hz i hzom)
    · exact hs i hpar (hz i hzom)

theorem Sleepy.inWait (h : Sleepy s t) {c : Fin NPROC} (hc : InWait t c) : InWait s c := by
  obtain ⟨h₁, h₂⟩ := h c hc.1
  exact ⟨h₁, h₂ ▸ hc.2⟩

theorem Lineage.forked (h : Lineage s) (hf : Family s) {c i : Fin NPROC} (hcur : s.cur = some c)
    (hpc : (s.proc c).pc = .forking i) (ok : Bool) (hs : Sleepy s (forkDone s c i ok)) :
    Lineage (forkDone s c i ok) := by
  have hemb := (hf.forking c i hpc).2
  have hi : ¬ (s.proc i).state.Alive := by rw [hemb]; simp [ProcState.Alive]
  obtain ⟨hinit, hci, hpar, -⟩ := hf.not_alive hi
  have hfields := Family.forkDone_fields (s := s) (fun he : c = i => hci (he ▸ hcur)) ok
  constructor
  · change ((forkDone s c i ok).proc s.initproc).parent = none
    rw [(hfields _).2.1, if_neg fun h => hinit h.1.symm]
    exact h.init
  · intro j hj
    rw [(hfields j).2.1] at hj
    split at hj
    · rename_i hji
      cases hj
      exact hci (hji.1 ▸ hcur)
    · exact h.self j hj
  · intro j hj hst
    rw [(hfields j).1] at hst
    rw [(hfields j).2.1]
    split
    · rintro ⟨⟩
    · rename_i hji
      refine h.has j hj ?_
      split at hst
      · rename_i hji'
        cases ok with
        | true => exact absurd ⟨hji', rfl⟩ hji
        | false => exact absurd rfl hst.1
      · exact hst
  · intro d j hd hpd hz
    have hd' := hs.inWait hd
    rw [(hfields j).1] at hz
    rw [(hfields j).2.1] at hpd
    split at hz
    · cases ok with
      | true => cases hz
      | false => cases hz
    · rename_i hji
      rw [if_neg fun h => hji h.1] at hpd
      exact h.waits d j hd' hpd hz

theorem Lineage.reap (h : Lineage s) (hf : Family s)
    (hzombie : (s.proc i).state = .zombie) : Lineage (s.set i Proc.reaped) := by
  have hi : ¬ (s.proc i).state.Alive := by rw [hzombie]; simp [ProcState.Alive]
  obtain ⟨hinit, -, -, -⟩ := hf.not_alive hi
  have hslot : ∀ j, (s.set i Proc.reaped).proc j = if j = i then (s.proc i).reaped else s.proc j :=
    fun _ => rfl
  have hs : Sleepy s (s.set i Proc.reaped) := set_sleepy fun p hp => by cases hp
  constructor
  · rw [hslot]
    change (if s.initproc = i then _ else _ : Proc).parent = none
    rw [if_neg hinit.symm]
    exact h.init
  · intro j hj
    rw [hslot] at hj
    split at hj
    · cases hj
    · exact h.self j hj
  · intro j hj hst
    rw [hslot] at hst ⊢
    split at hst
    · exact absurd rfl hst.1
    · rename_i hji
      rw [if_neg hji]
      exact h.has j hj hst
  · intro d j hd hpd hz
    rw [hslot] at hpd hz
    split at hz
    · cases hz
    · rename_i hji
      rw [if_neg hji] at hpd
      exact h.waits d j (hs.inWait hd) hpd hz

theorem Lineage.exit (h : Lineage s) (hf : Family s) {c : Fin NPROC} (hcur : s.cur = some c)
    (hpc : (s.proc c).pc = .exiting) : Lineage (exitLife s c) := by
  have hx := exitLife_spec s c
  have hr := (hf.one c).mp hcur
  have hi : c ≠ s.initproc := fun he => hf.init.2 (he ▸ hpc)
  have hpar : ∀ j, ((exitLife s c).proc j).parent =
      if (s.proc j).parent = some c then some s.initproc else (s.proc j).parent := fun j => by
    rw [hx.slot]
  have hz : ∀ j, j ≠ c → ((exitLife s c).proc j).state = .zombie → (s.proc j).state = .zombie := by
    intro j hj hzom
    rcases hx.state j hj with he | ⟨-, he⟩
    · rw [← he, hzom]
    · rw [hzom] at he
      cases he
  constructor
  · rw [hx.globals.initproc, hpar, if_neg (by rw [h.init]; rintro ⟨⟩)]
    exact h.init
  · intro j hj
    rw [hpar] at hj
    split at hj
    · rename_i hjc
      cases hj
      rw [h.init] at hjc
      cases hjc
    · exact h.self j hj
  · intro j hj hst
    rw [hx.globals.initproc] at hj
    rw [hpar]
    split
    · rintro ⟨⟩
    · refine h.has j hj ?_
      by_cases hjc : j = c
      · rw [hjc, hr]
        exact ⟨by decide, by decide⟩
      · rcases hx.state j hjc with he | ⟨he, -⟩
        · rw [← he]
          exact hst
        · rw [he]
          exact ⟨by decide, by decide⟩
  · -- whoever still sleeps in `wait()` was not woken: not the parent, nor `init` with a dead child
    intro d j hd hpd hzom
    have hdc : d ≠ c := by
      rintro rfl
      have := hd.1
      rw [hx.zombie] at this
      cases this
    have hchan : (s.proc d).chan = some (.proc d) := by
      have := hd.2
      rwa [hx.slot] at this
    have hd' : InWait s d := by
      refine ⟨?_, hchan⟩
      rcases hx.state d hdc with he | ⟨-, he⟩
      · rw [← he, hd.1]
      · rw [hd.1] at he
        cases he
    rw [hpar] at hpd
    split at hpd
    · rename_i hjc
      cases hpd
      have hjne : j ≠ c := fun he => h.self c (he ▸ hjc)
      exact hx.init ⟨j, hjc, hz j hjne hzom⟩ hd.1 hchan
    · by_cases hjc : j = c
      · rw [hjc] at hpd
        exact hx.parent d hpd hd.1 hchan
      · exact h.waits d j hd' hpd (hz j hjc hzom)

theorem lineage_step (hstep : lifeStep pol s e = some t) (hf : Family s) (h : Lineage s) : Lineage t := by
  have hk := (life_family hstep hf).1
  have hl := lifeStep_cases hstep
  have hsl : e ≠ .exit → Sleepy s t ∨ ∃ c chan, s.cur = some c ∧ t = Sched.sleep s c chan ∧
      (e = .wait ∧ WaitSleeps s c ∨ e = .sleep chan ∧ ∀ p, chan ≠ .proc p) := by
    intro hx
    cases hl with
    | step hst _ _ hsleep =>
      refine (hst.sleepy hx).imp_right ?_
      rintro ⟨c, chan, hcur, rfl, he | rfl⟩
      · exact ⟨c, chan, hcur, rfl, .inl he⟩
      · exact ⟨c, chan, hcur, rfl, .inr ⟨rfl, fun p hp => hsleep p (hp ▸ rfl)⟩⟩
    | skip hcur he => exact .inl fun j hj => ⟨hj, rfl⟩
    | turn hcur => exact .inl (set_sleepy fun p hp => by exact ⟨hp, rfl⟩)
    | exit => exact absurd rfl hx
  cases hk with
  | still hs _ hx =>
    refine h.same hs.initproc (fun i => (hs.slot i).parent) (fun i hi => ?_)
      (fun i hi => (hs.slot i).zombie.mp hi) fun c hc => ?_
    · exact ⟨fun hu => hi.1 ((hs.slot i).unused.mpr hu), fun he => hi.2 ((hs.slot i).embryo.mpr he)⟩
    · rcases hsl hx with hsleepy | ⟨d, chan, hcur, rfl, he⟩
      · exact .inl (hsleepy.inWait hc)
      · by_cases hcd : c = d
        · subst hcd
          rcases he with ⟨-, hw⟩ | ⟨-, hne⟩
          · exact .inr hw.2.2
          · have := hc.2
            simp only [Sched.sleep, Sys.leave, Sys.set, upd_same] at this
            exact absurd (Option.some.inj this) (hne c)
        · refine .inl ?_
          unfold InWait at hc ⊢
          simp only [Sched.sleep, Sys.leave, Sys.set, upd_ne _ _ hcd] at hc
          exact hc
  | @turn c hcur =>
    have hst : Agree Proc.state s (s.set c fun p => { p with pidtimes := p.pidtimes + 1 }) :=
      set_agree fun _ => rfl
    have hp : Agree Proc.parent s (s.set c fun p => { p with pidtimes := p.pidtimes + 1 }) :=
      set_agree fun _ => rfl
    have hs : Sleepy s (s.set c fun p => { p with pidtimes := p.pidtimes + 1 }) :=
      set_sleepy fun p hp => by exact ⟨hp, rfl⟩
    exact h.same rfl hp (fun i hi => hst i ▸ hi) (fun i hi => (hst i).symm.trans hi)
      fun c hc => .inl (hs.inWait hc)
  | @alloc c hcur hkernel i hfree =>
    refine h.same rfl (alloc_agree (fun _ _ _ => by rfl) (fun _ => by rfl)) (fun j hj => ?_)
      (fun j hj => ?_) fun d hd => ?_
    · simp only [Sys.set, upd_apply, Proc.alloc, ProcState.Made] at hj ⊢
      grind
    · simp only [Sys.set, upd_apply, Proc.alloc] at hj ⊢
      grind
    · rcases hsl (by rintro ⟨⟩) with hsleepy | ⟨d, chan, -, -, ⟨⟨⟩, -⟩ | ⟨⟨⟩, -⟩⟩
      exact .inl (hsleepy.inWait hd)
  | forked hcur hpc ok =>
    rcases hsl (by rintro ⟨⟩) with hsleepy | ⟨d, chan, -, -, ⟨⟨⟩, -⟩ | ⟨⟨⟩, -⟩⟩
    exact h.forked hf hcur hpc ok hsleepy
  | reap hcur i hparent hzombie => exact h.reap hf hzombie
  | exit hcur hpc => exact h.exit hf hcur hpc

theorem lineage_boot : Lineage boot := by
  have hp : ∀ i, (boot.proc i).parent = none := by
    intro i
    simp only [boot, upd_apply]
    split
    · rfl
    · rfl
  have hst : ∀ i, i ≠ 0 → (boot.proc i).state = .unused := by
    intro i hi
    simp only [boot, upd_apply, if_neg hi]
    rfl
  refine ⟨hp _, fun i => ?_, fun i hi hmade => absurd (hst i hi) hmade.1, fun c i _ hi => ?_⟩
  · rw [hp]
    rintro ⟨⟩
  · rw [hp] at hi
    cases hi

theorem pids_boot : Pids boot .init := by
  have hst : ∀ i, (boot.proc i).state ≠ .unused → i = 0 := by
    intro i hi
    by_contra hne
    refine hi ?_
    simp only [boot, upd_apply, if_neg hne]
    rfl
  refine ⟨⟨by decide, by decide⟩, fun i hi => ?_, fun i j hi hj _ => ?_, by rintro r ⟨⟩,
    List.nodup_nil⟩
  · rw [hst i hi]
    decide
  · rw [hst i hi, hst j hj]

/-- What holds in every run, `Pids` as long as few processes were made. -/
structure Living (x : Sys × History) : Prop where
  family : Family x.1
  lineage : Lineage x.1
  pids : x.2.allocs < 2 ^ 31 - 1 → Pids x.1 x.2

theorem living_step {x y : Sys × History} (hstep : living pol x e = some y) (h : Living x) : Living y := by
  obtain ⟨s, l⟩ := x
  obtain ⟨t, l'⟩ := y
  obtain ⟨hs, hl⟩ := withHistory_some hstep
  dsimp only at hs hl
  subst hl
  refine ⟨(life_family hs h.family).2, lineage_step hs h.family h.lineage, fun hfew => ?_⟩
  have hle : l.allocs ≤ (noteLife s e t l).allocs := noteLife_allocs l
  exact pids_step hs h.family (h.pids (Nat.lt_of_le_of_lt hle hfew)) hfew

theorem living_run {es : List Event} {x : Sys × History}
    (hrun : run (living pol) (boot, .init) es = some x) : Living x :=
  run_invariant (fun _ _ _ => living_step) hrun ⟨boot_family, lineage_boot, fun _ => pids_boot⟩

theorem zombie_reaped (hstep : lifeStep pol s e = some t) (hf : Family s)
    (hz : (s.proc i).state = .zombie) (ht : (t.proc i).state ≠ .zombie) :
    e = .wait ∧ ∃ c, s.cur = some c ∧ (s.proc i).parent = some c ∧
      waitRet s c = some (s.proc i).pid ∧ t = s.set i Proc.reaped := by
  have hk := (life_family hstep hf).1
  cases hk with
  | still hs _ _ => exact absurd ((hs.slot i).zombie.mpr hz) ht
  | @turn c hcur =>
    have hst : Agree Proc.state s (s.set c fun p => { p with pidtimes := p.pidtimes + 1 }) :=
      set_agree fun _ => rfl
    exact absurd ((hst i).trans hz) ht
  | @alloc c hcur hkernel j hfree =>
    simp only [Sys.set, upd_apply, Proc.alloc] at ht
    grind
  | @forked c j hcur hpc ok =>
    have hemb := (hf.forking c j hpc).2
    simp only [forkDone, Sys.set, upd_apply] at ht
    grind
  | reap =>
    obtain ⟨c, hcur, ht'⟩ := lifeStep_wait hstep
    refine ⟨rfl, c, hcur, ?_⟩
    rw [ht'] at ht ⊢
    have hends := wait_ends s c
    generalize waitRet s c = o at hends ⊢
    generalize wait s c = w at hends ht ⊢
    cases hends with
    | reap j hparent hzombie =>
      have hij : i = j := by
        by_contra hne
        refine ht ?_
        simp only [Sys.set, upd_ne _ _ hne]
        exact hz
      subst hij
      exact ⟨hparent, rfl, rfl⟩
    | fail hno => exact absurd hz ht
    | sleep hnone =>
      have hic : i ≠ c := by
        rintro rfl
        rw [(hf.one i).mp hcur] at hz
        cases hz
      simp only [Sched.sleep, Sys.leave, Sys.set, upd_ne _ _ hic] at ht
      exact absurd hz ht
  | @exit c hcur hpc =>
    have hr := (hf.one c).mp hcur
    have hic : i ≠ c := by
      rintro rfl
      rw [hr] at hz
      cases hz
    have := (exitLife_spec s c).state i hic
    grind

/-- The life cycle of processes, in every run with fewer than `2^31 - 1` calls of `allocproc` and
with the arrays of times left aside. -/
theorem life_cycle {es : List Event} {s : Sys} {h : History}
    (hrun : run (living pol) (boot, .init) es = some (s, h)) (hfew : h.allocs < 2 ^ 31 - 1) :
    (∀ i, (s.proc i).state ≠ .unused → 0 < (s.proc i).pid) ∧
    (∀ i j, (s.proc i).state ≠ .unused → (s.proc j).state ≠ .unused →
      (s.proc i).pid = (s.proc j).pid → i = j) ∧ (∀ c, (s.proc c).state = .running ↔ s.cur = some c) ∧
    (∀ i, i ≠ s.initproc → (s.proc i).state ≠ .unused → (s.proc i).state ≠ .embryo →
      ∃ p, (s.proc i).parent = some p ∧ (s.proc p).state ≠ .unused ∧ (s.proc p).state ≠ .zombie) ∧
    (∀ c i, (s.proc c).state = .sleeping → (s.proc c).chan = some (.proc c) →
      (s.proc i).parent = some c → (s.proc i).state ≠ .zombie) ∧ h.reaped.Nodup ∧
    (∀ r ∈ h.reaped, ∀ i, (s.proc i).state ≠ .unused → (s.proc i).pid ≠ r) ∧
    ∀ e t h', living pol (s, h) e = some (t, h') →
      (∀ i, (s.proc i).state = .zombie → (t.proc i).state ≠ .zombie →
        e = .wait ∧ ∃ c, s.cur = some c ∧ (s.proc i).parent = some c ∧
          waitRet s c = some (s.proc i).pid ∧ (t.proc i).state = .unused ∧
          h'.reaped = (s.proc i).pid :: h.reaped) ∧ ∀ c, e = .wait → s.cur = some c →
        (waitRet s c = some (-1) → (∀ i, (s.proc i).parent ≠ some c) ∨ (s.proc c).killed = true) ∧
        ∀ r, waitRet s c = some r → r ≠ -1 →
          ∃ i, (s.proc i).parent = some c ∧ (s.proc i).state = .zombie ∧ (s.proc i).pid = r ∧
            (t.proc i).state = .unused ∧ h'.reaped = r :: h.reaped := by
  have hl := living_run hrun
  have hp := hl.pids hfew
  have hpos : ∀ i, (s.proc i).state ≠ .unused → (s.proc i).pid ≠ -1 := by
    intro i hi he
    have := (hp.used i hi).1
    rw [he] at this
    exact absurd this (by decide)
  refine ⟨fun i hi => ?_, hp.distinct, fun c => (hl.family.one c).symm, ?_,
    fun c i hst hch => hl.lineage.waits c i ⟨hst, hch⟩, hp.nodup, fun r hr => (hp.gone r hr).2, ?_⟩
  · rw [Int32.lt_iff_toInt_lt]
    exact (hp.used i hi).1
  · intro i hi hu he
    obtain ⟨p, hpar⟩ := Option.ne_none_iff_exists'.mp (hl.lineage.has i hi ⟨hu, he⟩)
    have halive := (hl.family.parent i p hpar).1
    refine ⟨p, hpar, ?_, ?_⟩
    · intro hst
      rw [hst] at halive
      simp [ProcState.Alive] at halive
    · intro hst
      rw [hst] at halive
      simp [ProcState.Alive] at halive
  · intro e t h' hstep
    obtain ⟨hs, hh⟩ := withHistory_some hstep
    dsimp only at hs hh
    constructor
    · intro i hz ht
      obtain ⟨rfl, c, hcur, hpar, hret, rfl⟩ := zombie_reaped hs hl.family hz ht
      refine ⟨rfl, c, hcur, hpar, hret, ?_, ?_⟩
      · simp [Sys.set, Proc.reaped]
      · rw [hh]
        simp only [noteLife, hcur, Option.bind_some, hret]
        rw [if_neg (hpos i (by rw [hz]; decide))]
    · rintro c rfl hcur
      obtain ⟨c', hcur', ht⟩ := lifeStep_wait hs
      rw [hcur] at hcur'
      cases hcur'
      have hnote : ∀ r, waitRet s c = some r → r ≠ -1 → h'.reaped = r :: h.reaped := by
        intro r hr hne
        rw [hh]
        simp only [noteLife, hcur, Option.bind_some, hr]
        rw [if_neg hne]
      have hends := wait_ends s c
      rw [← ht] at hends
      generalize waitRet s c = o at hends hnote ⊢
      cases hends with
      | reap i hparent hzombie =>
        constructor
        · intro he
          exact absurd (Option.some.inj he) (hpos i (by rw [hzombie]; decide))
        · rintro r ⟨⟩ hne
          refine ⟨i, hparent, hzombie, rfl, ?_, hnote _ rfl hne⟩
          simp [Sys.set, Proc.reaped]
      | fail hno =>
        refine ⟨fun _ => hno, ?_⟩
        rintro r ⟨⟩ hne
        exact absurd rfl hne
      | sleep hnone =>
        constructor
        · rintro ⟨⟩
        · rintro r ⟨⟩

/-- `init` makes a child and sleeps in `wait()`, the child exits, and `wait()` returns its pid. -/
theorem life_cycle_child : ∃ x, run (living .default) (boot, .init)
      ([.scan, .allocproc, .forkDone true, .wait, .scan, .sysEntry, .sysExit, .exit] ++
        List.replicate 64 .scan ++ [.wait]) = some x ∧
    x.2.reaped = [2] ∧ ∀ i, (x.1.proc i).state ≠ .unused → (x.1.proc i).pid ≠ 2 := by
  have h : (run (living .default) (boot, .init)
      ([.scan, .allocproc, .forkDone true, .wait, .scan, .sysEntry, .sysExit, .exit] ++
        List.replicate 64 .scan ++ [.wait])).map (fun x => (x.2.reaped, x.2.allocs)) =
      some ([2], 2) := by decide +kernel
  obtain ⟨⟨s, l⟩, hx, he⟩ := Option.map_eq_some_iff.mp h
  obtain ⟨hr, ha⟩ := Prod.mk.inj he
  dsimp only at hr ha
  have hcycle := life_cycle hx (by rw [ha]; decide)
  exact ⟨(s, l), hx, hr, hcycle.2.2.2.2.2.2.1 2 (by rw [hr]; exact List.mem_singleton_self 2)⟩

end Xv6.Sched
