import Xv6.Sched.Step

/-!
# The process family

Most steps leave the processes there are: none is made, none dies, and who is
whose child stays. Such a step is `Still`. The others are the six of `Kind`
(`step_kind`), and the proofs about whole runs go by these.

`Family` is what holds of the table in every run (`run_family`): a parent is
alive, the slot a process is forking into is an embryo of its own, `init` never
exits, and the process on the CPU is the one that is `RUNNING`.
-/

namespace Xv6.Sched

open Table Scan

variable {pol : Policy} {s t u : Sys}

/-! ## Steps that make no one and kill no one -/

/-- Neither free, nor half made, nor dead. -/
def ProcState.Alive (st : ProcState) : Prop := st = .sleeping ∨ st = .runnable ∨ st = .running

instance (st : ProcState) : Decidable st.Alive := inferInstanceAs (Decidable (_ ∨ _ ∨ _))

/-- The fields a process keeps while it lives, except for its parent's `exit()`,
the `exit()` of its children, and `turntime()`. -/
def Proc.kept (p : Proc) : Int32 × Option (Fin NPROC) × Int32 × Int32 :=
  (p.pid, p.parent, p.ctime, p.pidtimes)

def Proc.times (p : Proc) : (Fin 10 → Int32) × (Fin 10 → Int32) × (Fin 10 → Int32) :=
  (p.pwaitingT, p.prunningT, p.pturnaroundT)

/-- A slot changed without a birth or a death in it, and no `fork()` began. -/
structure Calm (isInit : Prop) (p q : Proc) : Prop where
  kept : q.kept = p.kept
  times : q.times = p.times
  alive : q.state.Alive ↔ p.state.Alive
  embryo : q.state = .embryo ↔ p.state = .embryo
  zombie : q.state = .zombie ↔ p.state = .zombie
  forking : ∀ i, q.pc = .forking i → p.pc = .forking i
  exiting : isInit → q.pc = .exiting → p.pc = .exiting

namespace Calm

variable {isInit : Prop} {p q r : Proc}

theorem parent (h : Calm isInit p q) : q.parent = p.parent := congrArg (·.2.1) h.kept

theorem pid (h : Calm isInit p q) : q.pid = p.pid := congrArg (·.1) h.kept

theorem ctime (h : Calm isInit p q) : q.ctime = p.ctime := congrArg (·.2.2.1) h.kept

theorem pidtimes (h : Calm isInit p q) : q.pidtimes = p.pidtimes := congrArg (·.2.2.2) h.kept

theorem unused (h : Calm isInit p q) : q.state = .unused ↔ p.state = .unused := by
  obtain ⟨_, _, h1, h2, h3, _, _⟩ := h
  simp only [ProcState.Alive] at h1
  cases hp : p.state <;> cases hq : q.state <;> simp [hp, hq] at h1 h2 h3 <;> simp

theorem trans (h : Calm isInit p q) (h' : Calm isInit q r) : Calm isInit p r where
  kept := h'.kept.trans h.kept
  times := h'.times.trans h.times
  alive := h'.alive.trans h.alive
  embryo := h'.embryo.trans h.embryo
  zombie := h'.zombie.trans h.zombie
  forking i hi := h.forking i (h'.forking i hi)
  exiting hi hx := h.exiting hi (h'.exiting hi hx)

theorem of_same (hk : q.kept = p.kept) (htm : q.times = p.times) (hst : q.state = p.state)
    (hpc : q.pc = p.pc) : Calm isInit p q := by
  constructor <;> simp [hk, htm, hst, hpc]

theorem of_pc (hk : q.kept = p.kept) (htm : q.times = p.times) (hst : q.state = p.state)
    (hpc : ∀ i, q.pc ≠ .forking i) (hx : isInit → q.pc ≠ .exiting) : Calm isInit p q where
  kept := hk
  times := htm
  alive := by rw [hst]
  embryo := by rw [hst]
  zombie := by rw [hst]
  forking i hi := absurd hi (hpc i)
  exiting hi he := absurd he (hx hi)

theorem of_state (hk : q.kept = p.kept) (htm : q.times = p.times) (hp : p.state.Alive)
    (hq : q.state.Alive) (hpc : q.pc = p.pc) : Calm isInit p q where
  kept := hk
  times := htm
  alive := iff_of_true hq hp
  embryo := by constructor <;> intro h <;> simp [h, ProcState.Alive] at hp hq
  zombie := by constructor <;> intro h <;> simp [h, ProcState.Alive] at hp hq
  forking i hi := hpc ▸ hi
  exiting _ he := hpc ▸ he

end Calm

/-- The CPU runs the process that is `RUNNING`, if there is one. -/
def OneRunning (s : Sys) : Prop := ∀ c, s.cur = some c ↔ (s.proc c).state = .running

/-- Nothing is born and nothing dies. -/
structure Still (s t : Sys) : Prop where
  slot : ∀ i, Calm (i = s.initproc) (s.proc i) (t.proc i)
  nextpid : t.nextpid = s.nextpid
  initproc : t.initproc = s.initproc
  one : OneRunning s → OneRunning t

theorem Still.refl (s : Sys) : Still s s := ⟨fun _ => .of_same rfl rfl rfl rfl, rfl, rfl, id⟩

theorem Still.trans (h : Still s t) (h' : Still t u) : Still s u where
  slot i := (h.slot i).trans (h.initproc ▸ h'.slot i)
  nextpid := h'.nextpid.trans h.nextpid
  initproc := h'.initproc.trans h.initproc
  one := h'.one ∘ h.one

variable {c : Fin NPROC}

theorem Calm.upd {q : Proc} (hp : Calm (c = s.initproc) (s.proc c) q)
    (i : Fin NPROC) : Calm (i = s.initproc) (s.proc i) (upd s.proc c q i) := by
  rw [upd_apply]
  split
  case isTrue hi => exact hi ▸ hp
  case isFalse => exact .of_same rfl rfl rfl rfl

theorem Woken.still (hw : Woken s t) : Still s t where
  slot i := by
    have hk : (t.proc i).kept = (s.proc i).kept := by rw [hw.slot i]; rfl
    have htm : (t.proc i).times = (s.proc i).times := by rw [hw.slot i]; rfl
    have hpc : (t.proc i).pc = (s.proc i).pc := by rw [hw.slot i]
    obtain he | ⟨h1, h2⟩ := hw.state i
    · exact .of_same hk htm he hpc
    · exact .of_state hk htm (.inl h1) (.inr (.inl h2)) hpc
  nextpid := hw.globals.nextpid
  initproc := hw.globals.initproc
  one h c := by
    have hc : t.cur = s.cur := by rw [hw.same]
    have := hw.state c
    have := h c
    grind

theorem Still.set {f : Proc → Proc} (hp : Calm (c = s.initproc) (s.proc c) (f (s.proc c)))
    (hst : (f (s.proc c)).state = (s.proc c).state) : Still s (s.set c f) where
  slot := hp.upd
  nextpid := rfl
  initproc := rfl
  one h d := by
    have hd := h d
    simp only [Sys.set, upd_apply]
    grind

theorem Still.leave (hcur : s.cur = some c) {f : Proc → Proc}
    (hp : Calm (c = s.initproc) (s.proc c) (f (s.proc c)))
    (hst : (f (s.proc c)).state ≠ .running) : Still s (s.set c f).leave where
  slot := hp.upd
  nextpid := rfl
  initproc := rfl
  one h d := by
    have hd := h d
    simp only [Sys.leave, Sys.set, upd_apply]
    grind

theorem handle_still (s : Sys) (c : Option (Fin NPROC)) (no : TrapNo) : Still s (handle s c no) := by
  cases no with
  | timer =>
    have ht : Still s { s with ticks := s.ticks + 1 } :=
      ⟨fun _ => .of_same rfl rfl rfl rfl, rfl, rfl, id⟩
    exact ht.trans (wakeup1_woken _ _).still
  | device n => exact (wakeup1_woken _ _).still
  | fault =>
    cases c with
    | none => exact .refl s
    | some c => exact .set (f := fun p => { p with killed := true }) (.of_same rfl rfl rfl rfl) rfl

theorem handle_ticks (s : Sys) (c : Option (Fin NPROC)) (no : TrapNo) :
    (handle s c no).ticks = s.ticks ∨ no = .timer ∧ (handle s c no).ticks = s.ticks + 1 := by
  cases no with
  | timer => exact .inr ⟨rfl, rfl⟩
  | device n => exact .inl rfl
  | fault => cases c <;> exact .inl rfl

theorem onTick_ticks (pol : Policy) (s : Sys) (c : Fin NPROC) : (onTick pol s c).ticks = s.ticks := by
  cases pol with
  | default => rfl
  | frr =>
    simp only [onTick]
    split <;> rfl
  | fcfs => rfl

theorem handle_cur (s : Sys) (c : Option (Fin NPROC)) (no : TrapNo) : (handle s c no).cur = s.cur := by
  cases no with
  | timer => rfl
  | device n => rfl
  | fault => cases c <;> rfl

theorem forced_still (hinit : c ≠ s.initproc) : Still s (forced s c) :=
  .set (.of_pc rfl rfl rfl (fun _ => nofun) fun hc => absurd hc hinit) rfl

theorem yield_still (hcur : s.cur = some c) (hr : (s.proc c).state = .running) : Still s (yield s c) :=
  .leave hcur (.of_state rfl rfl (.inr (.inr hr)) (.inr (.inl rfl)) rfl) nofun

theorem sleep_still (hcur : s.cur = some c) (hr : (s.proc c).state = .running)
    (chan : Chan) : Still s (sleep s c chan) :=
  .leave hcur (.of_state rfl rfl (.inr (.inr hr)) (.inl rfl) rfl) nofun

theorem onTick_still (hcur : s.cur = some c) (hr : (s.proc c).state = .running) :
    Still s (onTick pol s c) := by
  cases pol with
  | default => exact yield_still hcur hr
  | frr =>
    simp only [onTick]
    split
    case isTrue =>
      have h : Still s (s.set c fun p => { p with slot := 0 }) := .set (.of_same rfl rfl rfl rfl) rfl
      exact h.trans (yield_still hcur (by simpa [Sys.set] using hr))
    case isFalse =>
      exact .set (f := fun p => { p with slot := p.slot + 1, runningT := p.runningT + 1 })
        (.of_same rfl rfl rfl rfl) rfl
  | fcfs =>
    exact .set (f := fun p => { p with runningT := p.runningT + 1 }) (.of_same rfl rfl rfl rfl) rfl

theorem kill_still (i : Fin NPROC) : Still s (s.set i fun p => { p with
    killed := true, state := if p.state = .sleeping then .runnable else p.state }) where
  slot := by
    refine Calm.upd ?_
    by_cases hsl : (s.proc i).state = .sleeping
    · exact .of_state rfl rfl (.inl hsl) (by simp [hsl, ProcState.Alive]) rfl
    · exact .of_same rfl rfl (if_neg hsl) rfl
  nextpid := rfl
  initproc := rfl
  one h d := by
    have hd := h d
    simp only [Sys.set, upd_apply]
    grind

theorem dispatch_still {p : Fin NPROC} (hcur : s.cur = none) (hr : (s.proc p).state = .runnable) :
    Still s (dispatch s p) where
  slot := Calm.upd (.of_state rfl rfl (.inr (.inl hr)) (.inr (.inr rfl)) rfl)
  nextpid := rfl
  initproc := rfl
  one h d := by
    have hd := h d
    simp only [dispatch, Sys.set, upd_apply]
    grind

/-! ## Kinds of steps -/

/-- The steps, by what they do to the family. -/
inductive Kind (s : Sys) : Event → Sys → Prop where
  | still {e : Event} {t : Sys} (h : Still s t) (he : e ≠ .turntime) (hx : e ≠ .exit)
      (hf : ∀ ok, e ≠ .forkDone ok)
      (hticks : t.ticks = s.ticks ∨ (e = .idle .timer ∨ e = .trap .timer) ∧ t.ticks = s.ticks + 1) :
      Kind s e t
  | turn {c : Fin NPROC} (hcur : s.cur = some c) :
      Kind s .turntime (s.set c fun p => { p with pidtimes := p.pidtimes + 1 })
  | alloc {c : Fin NPROC} (hcur : s.cur = some c) (hkernel : (s.proc c).pc = .kernel)
      (i : Fin NPROC) (hfree : (s.proc i).state = .unused)
      (hfirst : firstFin (fun i => decide ((s.proc i).state = .unused)) = some i) :
      Kind s .allocproc
        { (s.set i fun p => p.alloc s.nextpid s.ticks.toInt32).set c fun p =>
            { p with pc := .forking i } with
          nextpid := s.nextpid + 1 }
  | forked {c i : Fin NPROC} (hcur : s.cur = some c) (hpc : (s.proc c).pc = .forking i)
      (ok : Bool) : Kind s (.forkDone ok) (forkDone s c i ok)
  | reap {c : Fin NPROC} (hcur : s.cur = some c) (i : Fin NPROC)
      (hparent : (s.proc i).parent = some c) (hzombie : (s.proc i).state = .zombie) :
      Kind s .wait (s.set i fun p => { p with
        pid := 0, parent := none, killed := false, ctime := 0, state := .unused })
  | exit {c : Fin NPROC} {t : Sys} (hcur : s.cur = some c) (hpc : (s.proc c).pc = .exiting)
      (ht : exitEnd s c = some t) : Kind s .exit t

theorem Step.kind {e : Event} (hs : Step pol s e t) (h : OneRunning s) : Kind s e t := by
  cases hs with
  | pass hcur n =>
    exact .still ⟨fun i => .of_same rfl rfl rfl rfl, rfl, rfl, id⟩ nofun nofun (fun _ => nofun) (.inl rfl)
  | dispatch hcur p hscan hr => exact .still (dispatch_still hcur hr) nofun nofun (fun _ => nofun) (.inl rfl)
  | @idle hcur no hno =>
    refine .still (handle_still s none no) nofun nofun (fun _ => nofun) ((handle_ticks s none no).imp_right ?_)
    exact And.imp_left fun h => .inl (h ▸ rfl)
  | @trap c hcur no hstay =>
    refine .still (handle_still s (some c) no) nofun nofun (fun _ => nofun)
      ((handle_ticks s (some c) no).imp_right ?_)
    exact And.imp_left fun h => .inr (h ▸ rfl)
  | @tick c hcur hlive =>
    have h₁ := handle_still s (some c) .timer
    have hc := (handle_cur s (some c) .timer).trans hcur
    exact .still (h₁.trans (onTick_still hc ((h₁.one h c).mp hc))) nofun nofun (fun _ => nofun)
      (.inr ⟨.inr rfl, onTick_ticks pol _ c⟩)
  | @forced c hcur no hinit hkilled huser =>
    have h₁ := handle_still s (some c) no
    refine .still (h₁.trans (forced_still (h₁.initproc ▸ hinit))) nofun nofun (fun _ => nofun)
      ((handle_ticks s (some c) no).imp_right ?_)
    exact And.imp_left fun h => .inr (h ▸ rfl)
  | resume hcur hy =>
    exact .still (.set (.of_same (by rfl) rfl rfl rfl) rfl) nofun nofun (fun _ => nofun) (.inl rfl)
  | @resumeForced c hcur hy hinit hk hu =>
    have h₁ : Still s (s.set c fun p => { p with yielded := false }) :=
      .set (.of_same rfl rfl rfl rfl) rfl
    exact .still (h₁.trans (forced_still hinit)) nofun nofun (fun _ => nofun) (.inl rfl)
  | enter hcur huser =>
    exact .still (.set (.of_pc (by rfl) rfl rfl (fun _ => nofun) fun _ => nofun) rfl) nofun nofun (fun _ => nofun) (.inl rfl)
  | leave hcur hkernel =>
    exact .still (.set (.of_pc (by rfl) rfl rfl (fun _ => nofun) fun _ => nofun) rfl) nofun nofun (fun _ => nofun) (.inl rfl)
  | @quit c e hcur hinit he hpc =>
    have h₁ : Still s (s.set c fun p => { p with pc := .exiting }) :=
      .set (.of_pc rfl rfl rfl (fun _ => nofun) fun hc => absurd hc hinit) rfl
    refine .still h₁ ?_ ?_ (fun ok => ?_) (.inl rfl) <;> rintro rfl <;> simp at he
  | alloc hcur hkernel i hfree hfirst => exact .alloc hcur hkernel i hfree hfirst
  | forked hcur hpc ok => exact .forked hcur hpc ok
  | reap hcur i hparent hzombie => exact .reap hcur i hparent hzombie
  | killed hcur pid i => exact .still (kill_still i) nofun nofun (fun _ => nofun) (.inl rfl)
  | @sleep c e hcur chan he =>
    refine .still (sleep_still hcur ((h c).mp hcur) chan) ?_ ?_ (fun ok => ?_) (.inl rfl) <;> rintro rfl <;>
      simp at he
  | wakeup hcur chan => exact .still (wakeup1_woken s chan).still nofun nofun (fun _ => nofun) (.inl rfl)
  | skip hcur he => refine .still (.refl s) ?_ ?_ (fun ok => ?_) (.inl rfl) <;> rintro rfl <;> simp at he
  | turn hcur => exact .turn hcur
  | exit hcur hpc ht => exact .exit hcur hpc ht

/-! ## The family -/

/-- What holds of the table in every run. -/
structure Family (s : Sys) : Prop where
  init : (s.proc s.initproc).state.Alive ∧ (s.proc s.initproc).pc ≠ .exiting
  parent : ∀ i p, (s.proc i).parent = some p →
    (s.proc p).state.Alive ∧ ((s.proc i).state.Alive ∨ (s.proc i).state = .zombie)
  forking : ∀ c i, (s.proc c).pc = .forking i → (s.proc c).state.Alive ∧ (s.proc i).state = .embryo
  unique : ∀ c d i, (s.proc c).pc = .forking i → (s.proc d).pc = .forking i → c = d
  one : OneRunning s

namespace Family

theorem still (h : Family s) (hs : Still s t) : Family t where
  init := by
    have hp := hs.slot s.initproc
    rw [hs.initproc]
    exact ⟨hp.alive.mpr h.init.1, fun hx => h.init.2 (hp.exiting rfl hx)⟩
  parent i p hip := by
    rw [(hs.slot i).parent] at hip
    obtain ⟨h1, h2⟩ := h.parent i p hip
    exact ⟨(hs.slot p).alive.mpr h1, h2.imp (hs.slot i).alive.mpr (hs.slot i).zombie.mpr⟩
  forking c i hci := by
    obtain ⟨h1, h2⟩ := h.forking c i ((hs.slot c).forking i hci)
    exact ⟨(hs.slot c).alive.mpr h1, (hs.slot i).embryo.mpr h2⟩
  unique c d i hc hd := h.unique c d i ((hs.slot c).forking i hc) ((hs.slot d).forking i hd)
  one := hs.one h.one

variable {c : Fin NPROC}

theorem alive_cur (h : Family s) (hcur : s.cur = some c) :
    (s.proc c).state.Alive := .inr (.inr ((h.one c).mp hcur))

variable {i : Fin NPROC}

theorem not_alive (h : Family s) (hi : ¬ (s.proc i).state.Alive) :
    i ≠ s.initproc ∧ s.cur ≠ some i ∧ (∀ j, (s.proc j).parent ≠ some i) ∧ ∀ j, (s.proc i).pc ≠ .forking j :=
  ⟨fun he => hi (he ▸ h.init.1), fun hc => hi (h.alive_cur hc), fun j hj => hi (h.parent j i hj).1,
    fun j hj => hi (h.forking i j hj).1⟩

theorem no_parent (h : Family s) (hi : ¬ (s.proc i).state.Alive)
    (hz : (s.proc i).state ≠ .zombie) (p : Fin NPROC) : (s.proc i).parent ≠ some p := fun hp =>
  (h.parent i p hp).2.elim hi hz

theorem alloc (h : Family s) {c i : Fin NPROC} (hcur : s.cur = some c)
    (hfree : (s.proc i).state = .unused) (hc : t.cur = s.cur) (hin : t.initproc = s.initproc)
    (hst : ∀ j, (t.proc j).state = if j = i then .embryo else (s.proc j).state)
    (hp : ∀ j, (t.proc j).parent = (s.proc j).parent)
    (hpc : ∀ j, (t.proc j).pc = if j = c then .forking i else (s.proc j).pc) : Family t := by
  have hi : ¬ (s.proc i).state.Alive := by rw [hfree]; simp [ProcState.Alive]
  have hzi : (s.proc i).state ≠ .zombie := by rw [hfree]; nofun
  obtain ⟨hinit, hci, hpar, hfork⟩ := h.not_alive hi
  have hpar' := h.no_parent hi hzi
  have hr := h.alive_cur hcur
  constructor
  · grind [h.init]
  · intro j p
    grind [h.parent j p]
  · intro d j
    grind [h.forking d j]
  · intro d d' j
    have h₁ := h.unique d d' j
    have h₂ := h.forking d i
    have h₃ := h.forking d' i
    grind
  · intro d
    grind [h.one d]

theorem forkDone_fields (hne : c ≠ i) (ok : Bool) (j : Fin NPROC) : ((forkDone s c i ok).proc j).state =
      (if j = i then (if ok then .runnable else .unused) else (s.proc j).state) ∧
    ((forkDone s c i ok).proc j).parent = (if j = i ∧ ok then some c else (s.proc j).parent) ∧
    ((forkDone s c i ok).proc j).pc =
      if j = c then .kernel else if j = i ∧ ok then .user else (s.proc j).pc := by
  simp only [forkDone, Sys.set, upd_apply]
  grind

theorem forked (h : Family s) {c i : Fin NPROC} (hcur : s.cur = some c)
    (hpc : (s.proc c).pc = .forking i) (ok : Bool) : Family (forkDone s c i ok) := by
  have hemb := (h.forking c i hpc).2
  have hi : ¬ (s.proc i).state.Alive := by rw [hemb]; simp [ProcState.Alive]
  have hzi : (s.proc i).state ≠ .zombie := by rw [hemb]; nofun
  obtain ⟨hinit, hci, hpar, hfork⟩ := h.not_alive hi
  have hpar' := h.no_parent hi hzi
  have hr := h.alive_cur hcur
  have hf := forkDone_fields (s := s) (fun he : c = i => hci (he ▸ hcur)) ok
  have hc : (forkDone s c i ok).cur = s.cur := rfl
  have hin : (forkDone s c i ok).initproc = s.initproc := rfl
  constructor
  · grind [h.init]
  · intro j p
    rw [(hf j).1, (hf p).1, (hf j).2.1]
    grind [h.parent j p, ProcState.Alive]
  · intro d j
    rw [(hf d).1, (hf j).1, (hf d).2.2]
    grind [h.forking d j, h.unique c d i]
  · intro d d' j
    rw [(hf d).2.2, (hf d').2.2]
    grind [h.unique d d' j]
  · intro d
    rw [(hf d).1, hc]
    grind [h.one d]

theorem reap (h : Family s) (hzombie : (s.proc i).state = .zombie)
    (hc : t.cur = s.cur) (hin : t.initproc = s.initproc)
    (hst : ∀ j, (t.proc j).state = if j = i then .unused else (s.proc j).state)
    (hp : ∀ j, (t.proc j).parent = if j = i then none else (s.proc j).parent)
    (hpc : ∀ j, (t.proc j).pc = (s.proc j).pc) : Family t := by
  have hi : ¬ (s.proc i).state.Alive := by rw [hzombie]; simp [ProcState.Alive]
  obtain ⟨hinit, hci, hpar, hfork⟩ := h.not_alive hi
  constructor
  · grind [h.init]
  · intro j p
    grind [h.parent j p]
  · intro d j
    grind [h.forking d j]
  · intro d d' j
    grind [h.unique d d' j]
  · intro d
    grind [h.one d]

theorem exit_slots (h : Family s) (hcur : s.cur = some c)
    (hpc : (s.proc c).pc = .exiting) (hcur' : t.cur = none) (hin : t.initproc = s.initproc)
    (hpcs : ∀ j, (t.proc j).pc = (s.proc j).pc) (hzombie : (t.proc c).state = .zombie)
    (hst : ∀ j, j ≠ c → (t.proc j).state = (s.proc j).state ∨
      (s.proc j).state = .sleeping ∧ (t.proc j).state = .runnable) (hp : ∀ j, (t.proc j).parent =
      if (s.proc j).parent = some c then some s.initproc else (s.proc j).parent) : Family t := by
  have hr := (h.one c).mp hcur
  have hi : c ≠ s.initproc := fun he => h.init.2 (he ▸ hpc)
  have hinit := hst s.initproc hi.symm
  constructor
  · rw [hin, hpcs]
    grind [h.init, ProcState.Alive]
  · intro j p
    have h1 := hp j
    have h2 := hst p
    have h3 := hst j
    have h5 := h.parent j p
    have h6 := h.parent j c
    have h7 := h.init.1
    simp only [ProcState.Alive] at *
    grind
  · intro d j
    rw [hpcs]
    have h2 := hst d
    have h3 := hst j
    grind [h.forking d j, ProcState.Alive]
  · intro d d' j
    rw [hpcs, hpcs]
    exact h.unique d d' j
  · intro d
    have h2 := hst d
    grind [h.one d]

theorem exit (h : Family s) {c : Fin NPROC} (hcur : s.cur = some c)
    (hpc : (s.proc c).pc = .exiting) (ht : exitEnd s c = some t) : Family t := by
  obtain ⟨hcur', hg, hslot⟩ := exitEnd_spec ht
  refine h.exit_slots hcur hpc hcur' hg.initproc (fun j => ?_) ((hslot c).zombie rfl)
    (fun j => (hslot j).state) (fun j => (hslot j).parent)
  rw [(hslot j).same]

theorem turn (h : Family s) (c : Fin NPROC) :
    Family (s.set c fun p => { p with pidtimes := p.pidtimes + 1 }) := by
  generalize ht : s.set c _ = t
  have hf : ∀ j, (t.proc j).state = (s.proc j).state ∧ (t.proc j).parent = (s.proc j).parent ∧
      (t.proc j).pc = (s.proc j).pc := by
    intro j
    rw [← ht]
    simp only [Sys.set, upd_apply]
    split <;> simp [*]
  have hc : t.cur = s.cur := by rw [← ht]; rfl
  have hin : t.initproc = s.initproc := by rw [← ht]; rfl
  constructor
  · rw [hin, (hf _).1, (hf _).2.2]
    exact h.init
  · intro i p
    rw [(hf i).1, (hf i).2.1, (hf p).1]
    exact h.parent i p
  · intro d i
    rw [(hf i).1, (hf d).1, (hf d).2.2]
    exact h.forking d i
  · intro d d' i
    rw [(hf d).2.2, (hf d').2.2]
    exact h.unique d d' i
  · intro d
    rw [(hf d).1, hc]
    exact h.one d

theorem kind {e : Event} (h : Family s) (hk : Kind s e t) : Family t := by
  cases hk with
  | still hs _ _ _ _ => exact h.still hs
  | turn hcur => exact h.turn _
  | alloc hcur hkernel i hfree hfirst =>
    refine h.alloc hcur hfree rfl rfl (fun j => ?_) (fun j => ?_) (fun j => ?_)
    all_goals
      simp only [Sys.set, upd_apply, Proc.alloc]
      grind
  | forked hcur hpc ok => exact h.forked hcur hpc ok
  | reap hcur i hparent hzombie =>
    refine h.reap hzombie rfl rfl (fun j => ?_) (fun j => ?_) (fun j => ?_)
    all_goals
      simp only [Sys.set, upd_apply]
      grind
  | exit hcur hpc ht => exact h.exit hcur hpc ht

end Family

theorem boot_proc (i : Fin NPROC) : boot.proc i = if i = 0 then
      { Proc.blank with state := .runnable, pid := 1, pc := .kernel } else Proc.blank :=
  rfl

theorem boot_family : Family boot := by
  have hp := boot_proc
  constructor
  · exact ⟨.inr (.inl rfl), nofun⟩
  · intro i p
    grind [Proc.blank]
  · intro c i
    grind [Proc.blank]
  · intro c d i
    grind [Proc.blank]
  · intro c
    grind [Proc.blank, boot]

theorem step_family {e : Event} (h : step pol s e = some t) (hf : Family s) : Kind s e t ∧ Family t := by
  have hk := (step_cases h).kind hf.one
  exact ⟨hk, hf.kind hk⟩

end Xv6.Sched
