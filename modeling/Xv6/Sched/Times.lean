import Xv6.Sched.Family

/-!
# The arrays of children's times

`exit()` records the times of a process in three arrays of its parent, at the
distance of the two pids, and `runtime()`, `waittime()` and `turntime()` read them
back at a counter. The arrays have ten elements and neither index is checked.

Pids are handed out by one counter for all processes, so the distance is within
ten only if a process forks soon after it was created (`record_out_of_bounds`).
-/

namespace Xv6.Sched

open Table Trans

variable {pol : Policy} {s t : Sys}

/-- The indices at which the step `e` accesses an array of times. -/
def accesses (s : Sys) (e : Event) : List Int :=
  match s.cur with
  | none => []
  | some c =>
    if (s.proc c).yielded then []
    else
      match e, (s.proc c).pc, (s.proc c).parent with
      | .exit, .exiting, some p => [(exitIndex s c p).toInt]
      | .runtime, .kernel, _ => [(s.proc c).pidtimes.toInt]
      | .waittime, .kernel, _ => [(s.proc c).pidtimes.toInt]
      | .turntime, .kernel, _ => [(s.proc c).pidtimes.toInt]
      | _, _, _ => []

/-- A process forks eleven children, which go to sleep except for the last one. -/
def elevenChildren : List Event :=
  [.scan] ++ (List.replicate 11 [.allocproc, .forkDone true]).flatten ++ [.wait] ++
    (List.replicate 10 [.scan, .sysEntry, .sleep (.other 0)]).flatten ++ [.scan, .sysEntry, .sysExit]

/-- When the eleventh child exits, its times go past the end of the arrays. -/
theorem record_out_of_bounds : ∃ s, run (step .frr) boot elevenChildren = some s ∧
      ∃ i ∈ accesses s .exit, ¬ (0 ≤ i ∧ i < 10) := by
  have h : (run (step .frr) boot elevenChildren).map (accesses · .exit) = some [10] := by
    decide +kernel
  obtain ⟨s, hs, ha⟩ := Option.map_eq_some_iff.mp h
  refine ⟨s, hs, 10, ?_, by decide⟩
  rw [ha]
  exact List.mem_singleton_self 10

/-! ## Staying in bounds -/

/-- For each slot, how often its process has called `turntime()`. -/
abbrev Turns : Type := Fin NPROC → Nat

/-- A new process starts from zero. -/
def noteTurns (s : Sys) (e : Event) (t : Sys) (n : Turns) : Turns := fun i =>
  if (s.proc i).state = .unused ∧ (t.proc i).state = .embryo then 0
  else if e = .turntime ∧ s.cur = some i then n i + 1
  else n i

/-- The pid `a` is one of the ten after `b`. -/
def Near (a b : Int32) : Prop := 0 < (a - b).toInt ∧ (a - b).toInt ≤ 10

/-- A process forks only while the next pid is one of the ten after its own, leaves
only children near `init` behind, and asks for at most ten records. -/
def WithinTen (x : Sys × Turns) (e : Event) : Prop :=
  ∀ c, x.1.cur = some c →
    (e = .allocproc → Near x.1.nextpid (x.1.proc c).pid) ∧
    (e = .exit → ∀ i, (x.1.proc i).parent = some c →
      Near (x.1.proc i).pid (x.1.proc x.1.initproc).pid) ∧
    (e = .runtime ∨ e = .waittime ∨ e = .turntime → x.2 c < 10)

instance (a b : Int32) : Decidable (Near a b) := inferInstanceAs (Decidable (_ ∧ _))

instance (x : Sys × Turns) (e : Event) : Decidable (WithinTen x e) :=
  inferInstanceAs (Decidable (∀ _, _ → _))

/-- Every child is near its parent, and the counters count the calls. -/
structure Bounded (x : Sys × Turns) : Prop where
  family : Family x.1
  child : ∀ i p, (x.1.proc i).parent = some p → Near (x.1.proc i).pid (x.1.proc p).pid
  forking : ∀ c i, (x.1.proc c).pc = .forking i → Near (x.1.proc i).pid (x.1.proc c).pid
  turns : ∀ c, (x.1.proc c).pidtimes = Int32.ofNat (x.2 c)

variable {n : Turns} {e : Event}

theorem noteTurns_still (hs : Still s t) (he : e ≠ .turntime) : noteTurns s e t n = n := by
  funext i
  have hemb := (hs.slot i).embryo
  simp only [noteTurns]
  grind

theorem Bounded.still (h : Bounded (s, n)) (hs : Still s t) : Bounded (t, n) where
  family := h.family.still hs
  child i p hip := by
    rw [(hs.slot i).parent] at hip
    rw [(hs.slot i).pid, (hs.slot p).pid]
    exact h.child i p hip
  forking c i hci := by
    rw [(hs.slot i).pid, (hs.slot c).pid]
    exact h.forking c i ((hs.slot c).forking i hci)
  turns c := (hs.slot c).pidtimes.trans (h.turns c)

theorem Bounded.turn (h : Bounded (s, n)) {c : Fin NPROC} (hcur : s.cur = some c)
    (ht : t = s.set c fun p => { p with pidtimes := p.pidtimes + 1 }) :
    Bounded (t, noteTurns s .turntime t n) := by
  have hf : ∀ j, (t.proc j).pid = (s.proc j).pid ∧ (t.proc j).parent = (s.proc j).parent ∧
      (t.proc j).pc = (s.proc j).pc ∧ (t.proc j).state = (s.proc j).state ∧
      (t.proc j).pidtimes = if j = c then (s.proc j).pidtimes + 1 else (s.proc j).pidtimes := by
    intro j
    rw [ht]
    simp only [Sys.set, upd_apply]
    split <;> simp [*]
  refine ⟨ht ▸ h.family.turn c, fun i p => ?_, fun d i => ?_, fun d => ?_⟩
  · rw [(hf i).2.1, (hf i).1, (hf p).1]
    exact h.child i p
  · rw [(hf d).2.2.1, (hf i).1, (hf d).1]
    exact h.forking d i
  · have hd := h.turns d
    simp only [noteTurns, (hf d).2.2.2.1, (hf d).2.2.2.2]
    split
    case isTrue he =>
      subst he
      have hemb : ¬ ((s.proc d).state = .unused ∧ (s.proc d).state = .embryo) := by grind
      rw [if_neg hemb, if_pos ⟨trivial, hcur⟩, Int32.ofNat_add]
      exact congrArg (· + 1) hd
    case isFalse hne => grind

theorem Bounded.alloc (h : Bounded (s, n)) {c i : Fin NPROC} (hcur : s.cur = some c)
    (hfree : (s.proc i).state = .unused) (hnear : Near s.nextpid (s.proc c).pid) (ht : Family t)
    (hpid : ∀ j, (t.proc j).pid = if j = i then s.nextpid else (s.proc j).pid)
    (hst : ∀ j, (t.proc j).state = if j = i then .embryo else (s.proc j).state)
    (hp : ∀ j, (t.proc j).parent = (s.proc j).parent)
    (hpc : ∀ j, (t.proc j).pc = if j = c then .forking i else (s.proc j).pc)
    (hn : ∀ j, (t.proc j).pidtimes = if j = i then 0 else (s.proc j).pidtimes) :
    Bounded (t, noteTurns s .allocproc t n) := by
  have hi : ¬ (s.proc i).state.Alive := by rw [hfree]; simp [ProcState.Alive]
  have hzi : (s.proc i).state ≠ .zombie := by rw [hfree]; rintro ⟨⟩
  obtain ⟨hinit, hci, hpar, hfork⟩ := h.family.not_alive hi
  have hpar' := h.family.no_parent hi hzi
  refine ⟨ht, fun j p => ?_, fun d j => ?_, fun d => ?_⟩
  · have := h.child j p
    grind
  · have := h.forking d j
    have := h.family.forking d j
    grind
  · have h₁ := h.turns d
    by_cases hd : d = i
    · have hborn : (s.proc d).state = .unused ∧ (t.proc d).state = .embryo := by grind
      simp only [noteTurns, if_pos hborn]
      rw [hn, if_pos hd]
      rfl
    · simp only [noteTurns]
      grind

theorem Bounded.forked (h : Bounded (s, n)) {c i : Fin NPROC} (hcur : s.cur = some c)
    (hpc : (s.proc c).pc = .forking i) (ok : Bool) :
    Bounded (forkDone s c i ok, noteTurns s (.forkDone ok) (forkDone s c i ok) n) := by
  have hne : c ≠ i := fun he => by
    have := (h.family.forking c i hpc).2
    have := h.family.alive_cur hcur
    grind [ProcState.Alive]
  have hf := Family.forkDone_fields (s := s) hne ok
  have hid : ∀ j, ((forkDone s c i ok).proc j).pid = (s.proc j).pid ∧
      ((forkDone s c i ok).proc j).pidtimes = (s.proc j).pidtimes := by
    intro j
    simp only [forkDone, Sys.set, upd_apply]
    grind
  refine ⟨h.family.forked hcur hpc ok, fun j p => ?_, fun d j => ?_, fun d => ?_⟩
  · have h₁ := h.child j p
    have h₂ := h.forking c i hpc
    have h₃ := hf j
    have h₄ := hid j
    have h₅ := hid p
    grind
  · have h₁ := h.forking d j
    have h₃ := hf d
    have h₄ := hid j
    have h₅ := hid d
    grind
  · have h₁ := h.turns d
    have h₃ := hf d
    have h₄ := hid d
    simp only [noteTurns]
    grind

theorem Bounded.reap (h : Bounded (s, n)) {i : Fin NPROC} (hzombie : (s.proc i).state = .zombie)
    (ht : Family t) (hpid : ∀ j, j ≠ i → (t.proc j).pid = (s.proc j).pid)
    (hst : ∀ j, (t.proc j).state = if j = i then .unused else (s.proc j).state)
    (hp : ∀ j, (t.proc j).parent = if j = i then none else (s.proc j).parent)
    (hpc : ∀ j, (t.proc j).pc = (s.proc j).pc) (hn : ∀ j, (t.proc j).pidtimes = (s.proc j).pidtimes) :
    Bounded (t, noteTurns s .wait t n) := by
  have hi : ¬ (s.proc i).state.Alive := by rw [hzombie]; simp [ProcState.Alive]
  obtain ⟨hinit, hci, hpar, hfork⟩ := h.family.not_alive hi
  refine ⟨ht, fun j p => ?_, fun d j => ?_, fun d => ?_⟩
  · have := h.child j p
    grind
  · have := h.forking d j
    have := h.family.forking d j
    grind
  · have := h.turns d
    simp only [noteTurns]
    grind

theorem Bounded.exit (h : Bounded (s, n)) {c : Fin NPROC} (hcur : s.cur = some c)
    (hpc : (s.proc c).pc = .exiting) (ht : exitEnd s c = some t)
    (hnear : ∀ i, (s.proc i).parent = some c → Near (s.proc i).pid (s.proc s.initproc).pid) :
    Bounded (t, noteTurns s .exit t n) := by
  obtain ⟨hcur', hg, hslot⟩ := exitEnd_spec ht
  have hf : ∀ j, (t.proc j).pid = (s.proc j).pid ∧ (t.proc j).pc = (s.proc j).pc ∧
      (t.proc j).pidtimes = (s.proc j).pidtimes := fun j => by
    rw [(hslot j).same]
    exact ⟨rfl, rfl, rfl⟩
  refine ⟨h.family.exit hcur hpc ht, fun j p => ?_, fun d j => ?_, fun d => ?_⟩
  · have h₁ := (hslot j).parent
    have h₂ := h.child j p
    have h₃ := hnear j
    have h₄ := hf j
    have h₅ := hf p
    grind
  · rw [(hf d).2.1, (hf d).1, (hf j).1]
    exact h.forking d j
  · have h₁ := h.turns d
    have h₂ := (hslot d).state
    have h₃ := (hslot d).zombie
    have h₄ := hf d
    simp only [noteTurns]
    grind

theorem Bounded.kind (h : Bounded (s, n)) (hk : Kind s e t) (hC : WithinTen (s, n) e) :
    Bounded (t, noteTurns s e t n) := by
  have ht := h.family.kind hk
  cases hk with
  | still hs he _ _ _ =>
    rw [noteTurns_still hs he]
    exact h.still hs
  | turn hcur => exact h.turn hcur rfl
  | alloc hcur hkernel i hfree hfirst =>
    refine h.alloc hcur hfree ((hC _ hcur).1 rfl) ht (fun j => ?_) (fun j => ?_) (fun j => ?_)
      (fun j => ?_) (fun j => ?_)
    all_goals
      simp only [Sys.set, upd_apply, Proc.alloc]
      grind
  | forked hcur hpc ok => exact h.forked hcur hpc ok
  | reap hcur i hparent hzombie =>
    refine h.reap hzombie ht (fun j => ?_) (fun j => ?_) (fun j => ?_) (fun j => ?_) (fun j => ?_)
    all_goals
      simp only [Sys.set, upd_apply]
      grind
  | exit hcur hpc he => exact h.exit hcur hpc he ((hC _ hcur).2.1 rfl)

theorem boot_bounded : Bounded (boot, fun _ => 0) := by
  have hp := boot_proc
  refine ⟨boot_family, fun i p => ?_, fun c i => ?_, fun c => ?_⟩
  · grind [Proc.blank]
  · grind [Proc.blank]
  · grind [Proc.blank]

theorem step_bounded {x y : Sys × Turns} (h : withHistory (step pol) noteTurns x e = some y)
    (hC : WithinTen x e) (hx : Bounded x) : Bounded y := by
  obtain ⟨hstep, hy⟩ := withHistory_some h
  have hk := (step_family hstep hx.family).1
  have := hx.kind hk hC
  rwa [← hy] at this

theorem Near.index {a b : Int32} (h : Near a b) : 0 ≤ (a - b - 1).toInt ∧ (a - b - 1).toInt < 10 := by
  obtain ⟨h1, h2⟩ := h
  rw [Int32.toInt_sub, show (1 : Int32).toInt = 1 from rfl]
  generalize (a - b).toInt = d at h1 h2
  rw [Int.bmod_eq_of_le (by omega) (by omega)]
  omega

theorem Bounded.accesses {x : Sys × Turns} (h : Bounded x) (hC : WithinTen x e) :
    ∀ i ∈ accesses x.1 e, 0 ≤ i ∧ i < 10 := by
  intro i hi
  rw [Sched.accesses] at hi
  split at hi
  case h_1 => cases hi
  case h_2 c hcur =>
    have hread : e = .runtime ∨ e = .waittime ∨ e = .turntime →
        0 ≤ (x.1.proc c).pidtimes.toInt ∧ (x.1.proc c).pidtimes.toInt < 10 := by
      intro he
      have hn := (hC c hcur).2.2 he
      rw [h.turns, Int32.toInt_ofNat_of_lt (by omega)]
      omega
    split at hi
    case isTrue => cases hi
    case isFalse =>
      split at hi
      case h_1 p _ hp =>
        rw [List.mem_singleton.mp hi]
        exact (h.child c p hp).index
      case h_2 => rw [List.mem_singleton.mp hi]; exact hread (.inl rfl)
      case h_3 => rw [List.mem_singleton.mp hi]; exact hread (.inr (.inl rfl))
      case h_4 => rw [List.mem_singleton.mp hi]; exact hread (.inr (.inr rfl))
      case h_5 => cases hi

/-- In a run within the limits no access leaves the arrays. -/
theorem times_in_bounds {es : List Event} {x : Sys × Turns}
    (hrun : run (withHistory (step pol) noteTurns) (boot, fun _ => 0) es = some x)
    (hC : Always (withHistory (step pol) noteTurns) WithinTen (boot, fun _ => 0) es)
    (hnext : WithinTen x e) : ∀ i ∈ accesses x.1 e, 0 ≤ i ∧ i < 10 :=
  (run_invariant_always (fun _ _ _ => step_bounded) hrun hC boot_bounded).accesses hnext

def oneChild : List Event :=
  [.scan, .allocproc, .forkDone true, .wait, .scan, .sysEntry, .sysExit]

theorem times_in_bounds_oneChild :
    ∃ x, run (withHistory (step .frr) noteTurns) (boot, fun _ => 0) oneChild = some x ∧
      accesses x.1 .exit = [0] ∧ ∀ i ∈ accesses x.1 .exit, 0 ≤ i ∧ i < 10 := by
  have h : (run (withHistory (step .frr) noteTurns) (boot, fun _ => 0) oneChild).map
      (fun x => (accesses x.1 .exit, decide (WithinTen x .exit))) = some ([0], true) := by
    decide +kernel
  obtain ⟨x, hx, hv⟩ := Option.map_eq_some_iff.mp h
  obtain ⟨ha, hw⟩ := Prod.mk.inj hv
  exact ⟨x, hx, ha, times_in_bounds hx (by decide +kernel) (of_decide_eq_true hw)⟩

end Xv6.Sched
