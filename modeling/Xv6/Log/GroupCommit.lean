import Xv6.Log.Protocol

/-!
# The invariant of the group commit

`LogInv` holds in every state of every run of the protocol
(`logInv_of_run`). It counts the operations in progress, ties `log.committing`
to the one process that commits, and says what the header lists: the distinct
blocks of the operations since the last commit, each once. A sleeping process
sleeps for a reason that still holds.
-/

namespace Xv6

open Trans

/-! ## Lists of operations -/

def actives (g : List LogOp) : List LogOp := g.filter fun o => !o.ended

theorem LogSys.active_eq (s : LogSys) : s.active = actives s.group := rfl

theorem mem_actives {g : List LogOp} {o : LogOp} : o ∈ actives g ↔ o ∈ g ∧ o.ended = false := by
  simp [actives]

theorem actives_append_new (g : List LogOp) (p : Nat) :
    actives (g ++ [⟨p, [], false⟩]) = actives g ++ [⟨p, [], false⟩] := by
  simp [actives]

@[simp] theorem logBlock_pid (p b : Nat) (o : LogOp) : (logBlock p b o).pid = o.pid := by
  by_cases h : o.pid = p ∧ o.ended = false
  · simp [logBlock, h]
  · simp [logBlock, h]

@[simp] theorem logBlock_ended (p b : Nat) (o : LogOp) : (logBlock p b o).ended = o.ended := by
  by_cases h : o.pid = p ∧ o.ended = false
  · simp [logBlock, h]
  · simp [logBlock, h]

theorem actives_map_logBlock (p b : Nat) (g : List LogOp) :
    actives (g.map (logBlock p b)) = (actives g).map (logBlock p b) := by
  rw [actives, List.filter_map, actives]
  congr 1
  apply List.filter_congr
  intro o _
  simp

theorem actives_map_endBy (p : Nat) (g : List LogOp) :
    actives (g.map (endBy p)) = (actives g).filter fun o => o.pid ≠ p := by
  induction g with
  | nil => rfl
  | cons o g ih =>
    have hc : ∀ (o : LogOp) (g : List LogOp), actives (o :: g) =
        if o.ended = false then o :: actives g else actives g := by
      intro o g
      cases h : o.ended <;> simp [actives, h]
    rw [List.map_cons, hc, hc]
    by_cases he : o.ended = false
    · by_cases hp : o.pid = p
      · simp [endBy, he, hp, ih]
      · simp [endBy, he, hp, ih]
    · simp [endBy, he, ih]

theorem length_filter_pid {l : List LogOp} {p : Nat} (hnd : (l.map LogOp.pid).Nodup)
    (hp : ∃ o ∈ l, o.pid = p) : ((l.filter fun o => o.pid ≠ p).length : Int) = (l.length : Int) - 1 := by
  induction l with
  | nil => obtain ⟨o, ho, _⟩ := hp; cases ho
  | cons a l ih =>
    rw [List.map_cons, List.nodup_cons] at hnd
    by_cases ha : a.pid = p
    · have hl : l.filter (fun o => o.pid ≠ p) = l := by
        apply List.filter_eq_self.mpr
        intro o ho
        have hne : o.pid ≠ p := fun h =>
          hnd.1 (List.mem_map.mpr ⟨o, ho, by rw [h, ha]⟩)
        simpa using hne
      rw [List.filter_cons_of_neg (by simp [ha]), hl, List.length_cons]
      omega
    · obtain ⟨o, ho, hop⟩ := hp
      have hin : ∃ o ∈ l, o.pid = p := by
        cases List.mem_cons.mp ho with
        | inl he => subst he; exact absurd hop ha
        | inr ho' => exact ⟨o, ho', hop⟩
      rw [List.filter_cons_of_pos (by simpa using ha), List.length_cons, List.length_cons]
      have := ih hnd.2 hin
      omega

/-! ## The invariant -/

/-- What holds in every state of the protocol. -/
structure LogInv (s : LogSys) : Prop where
  /-- `log.outstanding` counts the operations in progress. -/
  outstanding : s.log.outstanding = (s.active.length : Int)
  /-- A process between `begin_op` and `end_op` runs one of them. -/
  inOp_iff : ∀ p, (s.pc p).isInOp = true ↔ ∃ o ∈ s.active, o.pid = p
  nodup_pid : (s.active.map LogOp.pid).Nodup
  /-- `log.committing` is set when some process commits. -/
  committing_iff : s.log.committing = true ↔ ∃ p, (s.pc p).isCommit = true
  commit_unique : ∀ p q, (s.pc p).isCommit = true → (s.pc q).isCommit = true → p = q
  commit_idle : s.log.committing = true → s.active = []
  /-- Without a commit and without an operation in progress, all is committed. -/
  idle : s.log.committing = false → s.active = [] → s.group = []
  nodup : s.log.lh.blocks.Nodup
  /-- The header lists the blocks of the operations since the last commit. -/
  blocks : ∀ b, b ∈ s.log.lh.blocks ↔ ∃ o ∈ s.group, b ∈ o.blocks
  le_logsize : s.log.lh.n ≤ LOGSIZE
  /-- `write_log` goes through the header in order. -/
  writing : ∀ p w, s.pc p = .writing w → w <+: s.log.lh.blocks
  /-- A commit has written what the header lists. -/
  committed : ∀ p w, s.pc p = .committed w → w = s.log.lh.blocks
  /-- After the reset nothing is left of the transaction. -/
  finishing : ∀ p, s.pc p = .finishing → s.group = []
  /-- A process sleeps on `&log` only while `begin_op` would not admit it. -/
  sleeping : ∀ p, s.pc p = .sleeping → s.log.committing = true ∨ s.log.full
  /-- Neither of the two panics on a broken protocol has happened. -/
  halted : s.halted ≠ some .outsideTrans ∧ s.halted ≠ some .committing

theorem logInv_init (start size : Nat) : LogInv (LogSys.init start size) where
  outstanding := rfl
  inOp_iff := by intro p; simp [LogSys.init, LogSys.active, LogPc.isInOp]
  nodup_pid := List.nodup_nil
  committing_iff := by simp [LogSys.init, LogPc.isCommit]
  commit_unique := by intro p q h; simp [LogSys.init, LogPc.isCommit] at h
  commit_idle := by intro h; cases h
  idle := fun _ _ => rfl
  nodup := List.nodup_nil
  blocks := by intro b; simp [LogSys.init, LogHeader.blocks, LogHeader.empty]
  le_logsize := Nat.zero_le _
  writing := by intro p w h; cases h
  committed := by intro p w h; cases h
  finishing := by intro p h; cases h
  sleeping := by intro p h; cases h
  halted := ⟨nofun, nofun⟩

theorem LogInv.halt {s : LogSys} (h : LogInv s) (x : LogHalt)
    (hx : x ≠ .outsideTrans ∧ x ≠ .committing) : LogInv { s with halted := some x } :=
  { h with halted := ⟨fun he => hx.1 (Option.some.inj he), fun he => hx.2 (Option.some.inj he)⟩ }

/-! ## Moving one process -/

theorem LogSys.goto_pc (s : LogSys) (p q : Nat) (c : LogPc) :
    (s.goto p c).pc q = if q = p then c else s.pc q := by
  simp [LogSys.goto, Function.update_apply]

@[simp] theorem isInOp_wakeupLog (pc : Nat → LogPc) (p : Nat) :
    (wakeupLog pc p).isInOp = (pc p).isInOp := by
  by_cases h : pc p = .sleeping
  · simp [wakeupLog, h, LogPc.isInOp]
  · simp [wakeupLog, h]

@[simp] theorem isCommit_wakeupLog (pc : Nat → LogPc) (p : Nat) :
    (wakeupLog pc p).isCommit = (pc p).isCommit := by
  by_cases h : pc p = .sleeping
  · simp [wakeupLog, h, LogPc.isCommit]
  · simp [wakeupLog, h]

theorem wakeupLog_ne_sleeping (pc : Nat → LogPc) (p : Nat) : wakeupLog pc p ≠ .sleeping := by
  by_cases h : pc p = .sleeping
  · simp [wakeupLog, h]
  · simp [wakeupLog, h]

theorem wakeupLog_eq_of_ne {pc : Nat → LogPc} {p : Nat} {c : LogPc} (hc : c ≠ .waiting)
    (h : wakeupLog pc p = c) : pc p = c := by
  by_cases hs : pc p = .sleeping
  · simp only [wakeupLog, hs, if_true] at h
    exact absurd h.symm hc
  · simpa [wakeupLog, hs] using h

section

variable {s : LogSys}

theorem LogInv.goto (h : LogInv s) (p : Nat) (c : LogPc)
    (hin : c.isInOp = (s.pc p).isInOp) (hcm : c.isCommit = (s.pc p).isCommit)
    (hw : ∀ w, c = .writing w → w <+: s.log.lh.blocks)
    (hc : ∀ w, c = .committed w → w = s.log.lh.blocks) (hf : c ≠ .finishing)
    (hs : c = .sleeping → s.log.committing = true ∨ s.log.full) : LogInv (s.goto p c) := by
  have hin' : ∀ q, ((s.goto p c).pc q).isInOp = (s.pc q).isInOp := by
    intro q
    by_cases hq : q = p
    · subst hq; rw [LogSys.goto_pc, if_pos rfl, hin]
    · rw [LogSys.goto_pc, if_neg hq]
  have hcm' : ∀ q, ((s.goto p c).pc q).isCommit = (s.pc q).isCommit := by
    intro q
    by_cases hq : q = p
    · subst hq; rw [LogSys.goto_pc, if_pos rfl, hcm]
    · rw [LogSys.goto_pc, if_neg hq]
  have hpc : ∀ {q x}, (s.goto p c).pc q = x → (q = p ∧ c = x) ∨ s.pc q = x := by
    intro q x hq
    rw [LogSys.goto_pc] at hq
    by_cases he : q = p
    · rw [if_pos he] at hq; exact Or.inl ⟨he, hq⟩
    · rw [if_neg he] at hq; exact Or.inr hq
  exact {
    outstanding := h.outstanding
    inOp_iff := fun q => by rw [hin' q]; exact h.inOp_iff q
    nodup_pid := h.nodup_pid
    committing_iff := by simp only [hcm']; exact h.committing_iff
    commit_unique := fun q r hq hr => h.commit_unique q r (hcm' q ▸ hq) (hcm' r ▸ hr)
    commit_idle := h.commit_idle
    idle := h.idle
    nodup := h.nodup
    blocks := h.blocks
    le_logsize := h.le_logsize
    writing := fun q w hq => by
      rcases hpc hq with ⟨_, he⟩ | hq
      · exact hw w he
      · exact h.writing q w hq
    committed := fun q w hq => by
      rcases hpc hq with ⟨_, he⟩ | hq
      · exact hc w he
      · exact h.committed q w hq
    finishing := fun q hq => by
      rcases hpc hq with ⟨_, he⟩ | hq
      · exact absurd he hf
      · exact h.finishing q hq
    sleeping := fun q hq => by
      rcases hpc hq with ⟨_, he⟩ | hq
      · exact hs he
      · exact h.sleeping q hq
    halted := h.halted }

theorem LogInv.not_isCommit (h : LogInv s) (hc : s.log.committing = false) (p : Nat) :
    (s.pc p).isCommit = false := by
  cases hp : (s.pc p).isCommit with
  | false => rfl
  | true => rw [h.committing_iff.mpr ⟨p, hp⟩] at hc; cases hc

variable {p : Nat}

theorem LogInv.not_committing (h : LogInv s) (hp : (s.pc p).isInOp = true) : s.log.committing = false := by
  cases hc : s.log.committing with
  | false => rfl
  | true =>
    obtain ⟨o, ho, _⟩ := (h.inOp_iff p).mp hp
    rw [h.commit_idle hc] at ho
    cases ho

theorem LogInv.outstanding_pos (h : LogInv s) (hp : (s.pc p).isInOp = true) : 1 ≤ s.log.outstanding := by
  obtain ⟨o, ho, _⟩ := (h.inOp_iff p).mp hp
  have := List.length_pos_of_mem ho
  rw [h.outstanding]
  omega

/-! ## The steps -/

theorem LogInv.enter (h : LogInv s) (hin : (s.pc p).isInOp = false)
    (hcm : (s.pc p).isCommit = false) (hc : s.log.committing = false) : LogInv { s with
      log := { s.log with outstanding := s.log.outstanding + 1 }
      pc := Function.update s.pc p .inOp
      group := s.group ++ [⟨p, [], false⟩] } := by
  have hpc : ∀ {q x}, Function.update s.pc p .inOp q = x → x ≠ .inOp → s.pc q = x := by
    intro q x hq hx
    by_cases he : q = p
    · subst he; rw [Function.update_self] at hq; exact absurd hq.symm hx
    · rwa [Function.update_of_ne he] at hq
  have hcm' : ∀ q, (Function.update s.pc p .inOp q).isCommit = (s.pc q).isCommit := by
    intro q
    by_cases he : q = p
    · subst he; rw [Function.update_self, hcm]; rfl
    · rw [Function.update_of_ne he]
  constructor
  case outstanding =>
    rw [LogSys.active_eq, actives_append_new, List.length_append]
    have := h.outstanding
    rw [LogSys.active_eq] at this
    simp only [List.length_cons, List.length_nil]
    omega
  case inOp_iff =>
    intro q
    rw [LogSys.active_eq, actives_append_new]
    have hq := h.inOp_iff q
    rw [LogSys.active_eq] at hq
    by_cases he : q = p
    · subst he
      simp [LogPc.isInOp]
    · simp only [Function.update_of_ne he, hq, List.mem_append, List.mem_singleton]
      constructor
      · rintro ⟨o, ho, hop⟩
        exact ⟨o, Or.inl ho, hop⟩
      · rintro ⟨o, ho | ho, hop⟩
        · exact ⟨o, ho, hop⟩
        · subst ho; exact absurd hop.symm he
  case nodup_pid =>
    rw [LogSys.active_eq, actives_append_new, List.map_append, List.nodup_append]
    refine ⟨h.nodup_pid, by simp, ?_⟩
    intro x hx y hy he
    obtain ⟨o, ho, hop⟩ := List.mem_map.mp hx
    have hyp : y = p := by simpa using hy
    have : (s.pc p).isInOp = true := (h.inOp_iff p).mpr ⟨o, ho, by rw [hop, he, hyp]⟩
    rw [hin] at this
    cases this
  case committing_iff =>
    simp only [hcm']
    exact h.committing_iff
  case commit_unique => exact fun q r hq hr => h.commit_unique q r (hcm' q ▸ hq) (hcm' r ▸ hr)
  case commit_idle => intro hc'; rw [hc] at hc'; cases hc'
  case idle =>
    intro _ ha
    rw [LogSys.active_eq, actives_append_new] at ha
    simp at ha
  case nodup => exact h.nodup
  case blocks =>
    intro b
    rw [h.blocks b]
    constructor
    · rintro ⟨o, ho, hb⟩
      exact ⟨o, List.mem_append_left _ ho, hb⟩
    · rintro ⟨o, ho, hb⟩
      rcases List.mem_append.mp ho with ho | ho
      · exact ⟨o, ho, hb⟩
      · rw [List.mem_singleton] at ho
        subst ho
        cases hb
  case le_logsize => exact h.le_logsize
  case writing => exact fun q w hq => h.writing q w (hpc hq nofun)
  case committed => exact fun q w hq => h.committed q w (hpc hq nofun)
  case finishing =>
    intro q hq
    have hq' := h.not_isCommit hc q
    rw [hpc hq nofun] at hq'
    cases hq'
  case sleeping =>
    intro q hq
    rcases h.sleeping q (hpc hq nofun) with h1 | h1
    · rw [hc] at h1; cases h1
    · refine Or.inr ?_
      simp only [Log.full, MAXOPBLOCKS, LOGSIZE] at h1 ⊢
      omega
  case halted => exact h.halted

variable {t : LogSys}

theorem LogInv.beginOp (h : LogInv s) (ht : s.beginOp p = some t) : LogInv t := by
  unfold LogSys.beginOp at ht
  split at ht
  case isFalse => cases ht
  case isTrue hp =>
    have hin : (s.pc p).isInOp = false := by
      rcases hp with hp | hp <;> rw [hp] <;> rfl
    have hcm : (s.pc p).isCommit = false := by
      rcases hp with hp | hp <;> rw [hp] <;> rfl
    split at ht
    case isTrue hc =>
      cases ht
      exact h.goto p .sleeping hin.symm hcm.symm nofun nofun nofun fun _ => Or.inl hc
    case isFalse hc =>
      split at ht
      case isTrue hfull =>
        cases ht
        exact h.goto p .sleeping hin.symm hcm.symm nofun nofun nofun fun _ => Or.inr hfull
      case isFalse hfull =>
        cases ht
        exact h.enter hin hcm (by simpa using hc)

variable {b : UInt32}

theorem LogInv.logCheck (h : LogInv s) (ht : s.logCheck p b = some t) : LogInv t := by
  unfold LogSys.logCheck at ht
  split at ht
  case isFalse => cases ht
  case isTrue hp =>
    split at ht
    case isTrue => cases ht; exact h.halt .tooBig ⟨nofun, nofun⟩
    case isFalse =>
      split at ht
      case isTrue hout =>
        have := h.outstanding_pos (p := p) (by rw [hp]; rfl)
        omega
      case isFalse =>
        cases ht
        exact h.goto p (.logging b) (by rw [hp]; rfl) (by rw [hp]; rfl) nofun nofun nofun nofun

variable {lh : LogHeader}

theorem LogHeader.mem_blocks_add (hb : lh.scan b < LOGSIZE)
    (x : Nat) : x ∈ (lh.add b).blocks ↔ x = b.toNat ∨ x ∈ lh.blocks := by
  by_cases hm : b.toNat ∈ lh.blocks
  · rw [LogHeader.blocks_add_of_mem hm]
    constructor
    · exact Or.inr
    · rintro (rfl | hx)
      · exact hm
      · exact hx
  · have hs : lh.scan b = lh.n := LogHeader.scan_eq_n_iff.mpr hm
    rw [LogHeader.blocks_add_of_notMem hm (by omega), List.mem_append, List.mem_singleton, or_comm]

theorem LogHeader.nodup_blocks_add (hb : lh.scan b < LOGSIZE)
    (hnd : lh.blocks.Nodup) : (lh.add b).blocks.Nodup := by
  by_cases hm : b.toNat ∈ lh.blocks
  · rw [LogHeader.blocks_add_of_mem hm]; exact hnd
  · have hs : lh.scan b = lh.n := LogHeader.scan_eq_n_iff.mpr hm
    rw [LogHeader.blocks_add_of_notMem hm (by omega), List.nodup_append]
    refine ⟨hnd, by simp, fun x hx y hy he => ?_⟩
    rw [List.mem_singleton] at hy
    exact hm (hy ▸ he ▸ hx)

theorem LogHeader.n_add_le (hb : lh.scan b < LOGSIZE)
    (hn : lh.n ≤ LOGSIZE) : lh.n ≤ (lh.add b).n ∧ (lh.add b).n ≤ LOGSIZE := by
  by_cases hs : lh.scan b = lh.n
  · have he : (lh.add b).n = lh.n + 1 := if_pos hs
    omega
  · have he : (lh.add b).n = lh.n := if_neg hs
    omega

theorem mem_group_logBlock {g : List LogOp} {b x : Nat} (hp : ∃ o ∈ actives g, o.pid = p) :
    (∃ o ∈ g.map (logBlock p b), x ∈ o.blocks) ↔ x = b ∨ ∃ o ∈ g, x ∈ o.blocks := by
  constructor
  · rintro ⟨o', ho', hx⟩
    obtain ⟨o, ho, rfl⟩ := List.mem_map.mp ho'
    by_cases hc : o.pid = p ∧ o.ended = false
    · rw [logBlock, if_pos hc] at hx
      rcases List.mem_insert_iff.mp hx with rfl | hx
      · exact Or.inl rfl
      · exact Or.inr ⟨o, ho, hx⟩
    · rw [logBlock, if_neg hc] at hx
      exact Or.inr ⟨o, ho, hx⟩
  · rintro (rfl | ⟨o, ho, hx⟩)
    · obtain ⟨o, ho, hop⟩ := hp
      obtain ⟨hog, hoe⟩ := mem_actives.mp ho
      refine ⟨_, List.mem_map.mpr ⟨o, hog, rfl⟩, ?_⟩
      rw [logBlock, if_pos ⟨hop, hoe⟩]
      exact List.mem_insert_self
    · refine ⟨_, List.mem_map.mpr ⟨o, ho, rfl⟩, ?_⟩
      by_cases hc : o.pid = p ∧ o.ended = false
      · rw [logBlock, if_pos hc]; exact List.mem_insert_of_mem hx
      · rw [logBlock, if_neg hc]; exact hx

theorem LogInv.logAppend (h : LogInv s) (ht : s.logAppend p = some t) : LogInv t := by
  unfold LogSys.logAppend at ht
  split at ht
  case h_2 => cases ht
  case h_1 b hp =>
    split at ht
    case isFalse => cases ht; exact h.halt .overrun ⟨nofun, nofun⟩
    case isTrue hb =>
      cases ht
      have hin : (s.pc p).isInOp = true := by rw [hp]; rfl
      have hc := h.not_committing hin
      have hop := (h.inOp_iff p).mp hin
      have hg := h.goto p .inOp (by rw [hp]; rfl) (by rw [hp]; rfl) nofun nofun nofun nofun
      have hact : actives (s.group.map (logBlock p b.toNat))
          = s.active.map (logBlock p b.toNat) := actives_map_logBlock ..
      have hn := LogHeader.n_add_le hb h.le_logsize
      have hnc : ∀ q, ((s.goto p .inOp).pc q).isCommit = false := hg.not_isCommit hc
      constructor
      case outstanding =>
        rw [LogSys.active_eq, hact, List.length_map]
        exact h.outstanding
      case inOp_iff =>
        intro q
        rw [LogSys.active_eq, hact]
        refine (hg.inOp_iff q).trans ?_
        constructor
        · rintro ⟨o, ho, hq⟩
          exact ⟨_, List.mem_map.mpr ⟨o, ho, rfl⟩, by rw [logBlock_pid, hq]⟩
        · rintro ⟨o', ho', hq⟩
          obtain ⟨o, ho, rfl⟩ := List.mem_map.mp ho'
          exact ⟨o, ho, by rw [← hq, logBlock_pid]⟩
      case nodup_pid =>
        rw [LogSys.active_eq, hact, List.map_map]
        rw [show LogOp.pid ∘ logBlock p b.toNat = LogOp.pid from funext fun o => logBlock_pid ..]
        exact h.nodup_pid
      case committing_iff => exact hg.committing_iff
      case commit_unique => exact hg.commit_unique
      case commit_idle => intro hc'; rw [hc] at hc'; cases hc'
      case idle =>
        intro _ ha
        rw [LogSys.active_eq, hact, List.map_eq_nil_iff] at ha
        obtain ⟨o, ho, _⟩ := hop
        rw [ha] at ho
        cases ho
      case nodup => exact LogHeader.nodup_blocks_add hb h.nodup
      case blocks =>
        intro x
        rw [LogHeader.mem_blocks_add hb, h.blocks, mem_group_logBlock hop]
      case le_logsize => exact hn.2
      case writing =>
        intro q w hq
        have := hnc q
        rw [show (s.goto p .inOp).pc q = .writing w from hq] at this
        cases this
      case committed =>
        intro q w hq
        have := hnc q
        rw [show (s.goto p .inOp).pc q = .committed w from hq] at this
        cases this
      case finishing =>
        intro q hq
        have := hnc q
        rw [show (s.goto p .inOp).pc q = .finishing from hq] at this
        cases this
      case sleeping =>
        intro q hq
        rcases hg.sleeping q hq with h1 | h1
        · exact Or.inl h1
        · refine Or.inr ?_
          have h2 : (s.log.lh.n : Int) + (s.log.outstanding + 1) * (MAXOPBLOCKS : Int)
            > (LOGSIZE : Int) := h1
          simp only [Log.full]
          omega
      case halted => exact h.halted

theorem mem_group_endBy {g : List LogOp} {x : Nat} :
    (∃ o ∈ g.map (endBy p), x ∈ o.blocks) ↔ ∃ o ∈ g, x ∈ o.blocks := by
  have hb : ∀ o : LogOp, (endBy p o).blocks = o.blocks := by
    intro o
    by_cases hc : o.pid = p ∧ o.ended = false
    · rw [endBy, if_pos hc]
    · rw [endBy, if_neg hc]
  constructor
  · rintro ⟨o', ho', hx⟩
    obtain ⟨o, ho, rfl⟩ := List.mem_map.mp ho'
    exact ⟨o, ho, hb o ▸ hx⟩
  · rintro ⟨o, ho, hx⟩
    exact ⟨_, List.mem_map.mpr ⟨o, ho, rfl⟩, (hb o).symm ▸ hx⟩

theorem LogInv.active_endBy (h : LogInv s) (hin : (s.pc p).isInOp = true) :
    ((actives (s.group.map (endBy p))).length : Int) = s.log.outstanding - 1 := by
  rw [actives_map_endBy, h.outstanding]
  exact length_filter_pid h.nodup_pid ((h.inOp_iff p).mp hin)

theorem LogInv.inOp_endBy (h : LogInv s) {pc : Nat → LogPc}
    (hp : (pc p).isInOp = false) (hq : ∀ q, q ≠ p → (pc q).isInOp = (s.pc q).isInOp) (q : Nat) :
    (pc q).isInOp = true ↔ ∃ o ∈ actives (s.group.map (endBy p)), o.pid = q := by
  rw [actives_map_endBy]
  by_cases he : q = p
  · subst he
    rw [hp]
    constructor
    · intro hf; cases hf
    · rintro ⟨o, ho, hop⟩
      have := (List.mem_filter.mp ho).2
      simp [hop] at this
  · rw [hq q he, h.inOp_iff q]
    constructor
    · rintro ⟨o, ho, hop⟩
      exact ⟨o, List.mem_filter.mpr ⟨ho, by simp [hop, he]⟩, hop⟩
    · rintro ⟨o, ho, hop⟩
      exact ⟨o, (List.mem_filter.mp ho).1, hop⟩

theorem LogInv.nodup_endBy (h : LogInv s) (p : Nat) :
    ((actives (s.group.map (endBy p))).map LogOp.pid).Nodup := by
  rw [actives_map_endBy]
  exact h.nodup_pid.sublist (List.filter_sublist.map _)

theorem LogInv.endLast (h : LogInv s) (hin : (s.pc p).isInOp = true) (h0 : s.log.outstanding - 1 = 0) :
    LogInv { s with
      log := { s.log with outstanding := s.log.outstanding - 1, committing := true }
      pc := Function.update s.pc p (.writing [])
      group := s.group.map (endBy p) } := by
  have hc := h.not_committing hin
  have hlen := h.active_endBy hin
  have hnil : actives (s.group.map (endBy p)) = [] := List.length_eq_zero_iff.mp (by omega)
  have hpc : ∀ {q x}, Function.update s.pc p (.writing []) q = x → x.isCommit = true →
      q = p ∧ x = .writing [] := by
    intro q x hq hx
    by_cases he : q = p
    · subst he; rw [Function.update_self] at hq; exact ⟨rfl, hq.symm⟩
    · rw [Function.update_of_ne he] at hq
      have := h.not_isCommit hc q
      rw [hq, hx] at this
      cases this
  constructor
  case outstanding => rw [LogSys.active_eq]; exact hlen.symm
  case inOp_iff =>
    intro q
    exact h.inOp_endBy (by simp [LogPc.isInOp]) (fun q hq => by simp [hq]) q
  case nodup_pid => exact h.nodup_endBy p
  case committing_iff =>
    exact ⟨fun _ => ⟨p, by simp [LogPc.isCommit]⟩, fun _ => rfl⟩
  case commit_unique => exact fun q r hq hr => (hpc rfl hq).1.trans (hpc rfl hr).1.symm
  case commit_idle => exact fun _ => hnil
  case idle => intro hc'; cases hc'
  case nodup => exact h.nodup
  case blocks => intro b; rw [h.blocks b, mem_group_endBy]
  case le_logsize => exact h.le_logsize
  case writing =>
    intro q w hq
    cases (hpc hq rfl).2
    exact List.nil_prefix
  case committed => intro q w hq; cases (hpc hq rfl).2
  case finishing => intro q hq; cases (hpc hq rfl).2
  case sleeping => exact fun _ _ => Or.inl rfl
  case halted => exact h.halted

theorem LogInv.endOther (h : LogInv s) (hin : (s.pc p).isInOp = true) (h0 : s.log.outstanding - 1 ≠ 0) :
    LogInv { s with
      log := { s.log with outstanding := s.log.outstanding - 1 }
      pc := Function.update (wakeupLog s.pc) p .out
      group := s.group.map (endBy p) } := by
  have hc := h.not_committing hin
  have hlen := h.active_endBy hin
  have hnc : ∀ q, (Function.update (wakeupLog s.pc) p .out q).isCommit = false := by
    intro q
    by_cases he : q = p
    · subst he; rw [Function.update_self]; rfl
    · rw [Function.update_of_ne he, isCommit_wakeupLog]; exact h.not_isCommit hc q
  have hpc : ∀ {q x}, Function.update (wakeupLog s.pc) p .out q = x → x.isCommit = false := by
    intro q x hq
    rw [← hq]
    exact hnc q
  constructor
  case outstanding => rw [LogSys.active_eq]; exact hlen.symm
  case inOp_iff =>
    intro q
    exact h.inOp_endBy (by simp [LogPc.isInOp]) (fun q hq => by simp [hq]) q
  case nodup_pid => exact h.nodup_endBy p
  case committing_iff =>
    refine ⟨fun hc' => ?_, fun ⟨q, hq⟩ => ?_⟩
    · rw [show s.log.committing = true from hc'] at hc; cases hc
    · rw [hnc q] at hq; cases hq
  case commit_unique => intro q r hq; rw [hnc q] at hq; cases hq
  case commit_idle => intro hc'; rw [show s.log.committing = true from hc'] at hc; cases hc
  case idle =>
    intro _ ha
    rw [LogSys.active_eq] at ha
    rw [ha] at hlen
    exact absurd hlen.symm h0
  case nodup => exact h.nodup
  case blocks => intro b; rw [h.blocks b, mem_group_endBy]
  case le_logsize => exact h.le_logsize
  case writing => intro q w hq; cases hpc hq
  case committed => intro q w hq; cases hpc hq
  case finishing => intro q hq; cases hpc hq
  case sleeping =>
    intro q hq
    by_cases he : q = p
    · subst he; simp at hq
    · exact absurd hq (by simp [he, wakeupLog_ne_sleeping])
  case halted => exact h.halted

theorem LogInv.endOp (h : LogInv s) (ht : s.endOp p = some t) : LogInv t := by
  unfold LogSys.endOp at ht
  split at ht
  case isFalse => cases ht
  case isTrue hp =>
    have hin : (s.pc p).isInOp = true := by rw [hp]; rfl
    have hc := h.not_committing hin
    simp only [hc] at ht
    split at ht
    case isTrue hf => cases hf
    case isFalse =>
      split at ht
      case isTrue h0 => cases ht; exact h.endLast hin h0
      case isFalse h0 => cases ht; rw [← hc]; exact h.endOther hin h0

theorem prefix_snoc {α : Type} {w l : List α} (h : w <+: l) (hl : w.length < l.length) :
    w ++ [l[w.length]] <+: l := by
  obtain ⟨t, rfl⟩ := h
  cases t with
  | nil => simp at hl
  | cons a t => exact ⟨t, by simp⟩

theorem LogInv.reset (h : LogInv s) (hp : (s.pc p).isCommit = true) :
    LogInv { s with log := s.log.clear, pc := Function.update s.pc p .finishing, group := [] } := by
  have hcm : ∀ q, (Function.update s.pc p .finishing q).isCommit = (s.pc q).isCommit := by
    intro q
    by_cases he : q = p
    · subst he; rw [Function.update_self, hp]; rfl
    · rw [Function.update_of_ne he]
  have hpc : ∀ {q x}, Function.update s.pc p .finishing q = x → x.isCommit = true →
      x = .finishing := by
    intro q x hq hx
    have he : q = p := h.commit_unique q p (by rw [← hcm q, hq, hx]) hp
    rw [he, Function.update_self] at hq
    exact hq.symm
  have hc : s.log.committing = true := h.committing_iff.mpr ⟨p, hp⟩
  constructor
  case outstanding =>
    have := h.outstanding
    rw [h.commit_idle hc] at this
    exact this
  case inOp_iff =>
    intro q
    have hq := h.inOp_iff q
    rw [h.commit_idle hc] at hq
    by_cases he : q = p
    · subst he; simp [LogPc.isInOp, LogSys.active_eq, actives]
    · simp only [Function.update_of_ne he]; exact hq
  case nodup_pid => exact List.nodup_nil
  case committing_iff => simp only [hcm]; exact h.committing_iff
  case commit_unique => exact fun q r hq hr => h.commit_unique q r (hcm q ▸ hq) (hcm r ▸ hr)
  case commit_idle => exact fun _ => rfl
  case idle => exact fun _ _ => rfl
  case nodup => exact List.nodup_nil
  case blocks => intro b; simp [Log.clear, LogHeader.blocks]
  case le_logsize => exact Nat.zero_le _
  case writing => intro q w hq; cases hpc hq rfl
  case committed => intro q w hq; cases hpc hq rfl
  case finishing => exact fun _ _ => rfl
  case sleeping => exact fun _ _ => Or.inl hc
  case halted => exact h.halted

theorem LogInv.finish (h : LogInv s) (hp : s.pc p = .finishing) : LogInv { s with
      log := { s.log with committing := false }
      pc := Function.update (wakeupLog s.pc) p .out } := by
  have hcp : (s.pc p).isCommit = true := by rw [hp]; rfl
  have hc : s.log.committing = true := h.committing_iff.mpr ⟨p, hcp⟩
  have hgroup := h.finishing p hp
  have hnc : ∀ q, (Function.update (wakeupLog s.pc) p .out q).isCommit = false := by
    intro q
    by_cases he : q = p
    · subst he; rw [Function.update_self]; rfl
    · rw [Function.update_of_ne he, isCommit_wakeupLog]
      cases hq : (s.pc q).isCommit with
      | false => rfl
      | true => exact absurd (h.commit_unique q p hq hcp) he
  have hpc : ∀ {q x}, Function.update (wakeupLog s.pc) p .out q = x → x.isCommit = false := by
    intro q x hq
    rw [← hq]
    exact hnc q
  constructor
  case outstanding => exact h.outstanding
  case inOp_iff =>
    intro q
    refine Iff.trans ?_ (h.inOp_iff q)
    by_cases he : q = p
    · subst he; simp [hp, LogPc.isInOp]
    · simp [he]
  case nodup_pid => exact h.nodup_pid
  case committing_iff =>
    refine ⟨nofun, fun ⟨q, hq⟩ => ?_⟩
    rw [hnc q] at hq
    cases hq
  case commit_unique => intro q r hq; rw [hnc q] at hq; cases hq
  case commit_idle => exact nofun
  case idle => exact fun _ _ => hgroup
  case nodup => exact h.nodup
  case blocks => exact h.blocks
  case le_logsize => exact h.le_logsize
  case writing => intro q w hq; cases hpc hq
  case committed => intro q w hq; cases hpc hq
  case finishing => exact fun _ _ => hgroup
  case sleeping =>
    intro q hq
    by_cases he : q = p
    · subst he; simp at hq
    · exact absurd hq (by simp [he, wakeupLog_ne_sleeping])
  case halted => exact h.halted

theorem LogInv.commitStep (h : LogInv s) (ht : s.commitStep p = some t) : LogInv t := by
  unfold LogSys.commitStep at ht
  split at ht
  case h_1 w hp =>
    have hw := h.writing p w hp
    split at ht
    case isTrue hl =>
      cases ht
      refine h.goto p _ (by rw [hp]; rfl) (by rw [hp]; rfl) ?_ nofun nofun nofun
      intro w' he
      cases he
      rw [← s.log.lh.length_blocks] at hl
      rw [← s.log.lh.getElem_blocks hl]
      exact prefix_snoc hw hl
    case isFalse hl =>
      cases ht
      refine h.goto p _ (by rw [hp]; rfl) (by rw [hp]; rfl) nofun ?_ nofun nofun
      intro w' he
      cases he
      exact hw.eq_of_length_le (by rw [LogHeader.length_blocks]; omega)
  case h_2 hp => cases ht; exact h.reset (by rw [hp]; rfl)
  case h_3 hp => cases ht; exact h.finish hp
  case h_4 => cases ht

theorem LogInv.kill (h : LogInv s) {p : Nat} {t : LogSys} (ht : s.kill p = some t) : LogInv t := by
  unfold LogSys.kill at ht
  split at ht
  case isFalse => cases ht
  case isTrue hp =>
    cases ht
    exact h.goto p .waiting (by rw [hp]; rfl) (by rw [hp]; rfl) nofun nofun nofun nofun

theorem LogInv.step (h : LogInv s) {e : LogEvent} (ht : s.step e = some t) : LogInv t := by
  unfold LogSys.step at ht
  split at ht
  case isFalse => cases ht
  case isTrue =>
    cases e with
    | beginOp p => exact h.beginOp ht
    | logCheck p b => exact h.logCheck ht
    | logAppend p => exact h.logAppend ht
    | endOp p => exact h.endOp ht
    | commitStep p => exact h.commitStep ht
    | kill p => exact h.kill ht

end

theorem logInv_of_run {start size : Nat} {es : List LogEvent} {s : LogSys}
    (h : run LogSys.step (LogSys.init start size) es = some s) : LogInv s :=
  run_invariant (fun _ _ _ hstep hinv => hinv.step hstep) h (logInv_init start size)

/-! ## The contract of the protocol -/

/-- **Group commit.**  In every state of every run, for any number of processes:

1. while `log.committing` is set no operation is in progress, and neither the
   panic of `end_op` nor the second panic of `log_write` has happened;
2. a commit writes the distinct blocks that the operations since the previous
   commit have logged, each once, and all of those operations have ended;
3. a process that sleeps on `&log` could not be admitted now, and then some
   operation is in progress or some process commits, so it will be woken. -/
theorem group_commit {start size : Nat} {es : List LogEvent} {s : LogSys}
    (h : run LogSys.step (LogSys.init start size) es = some s) :
    ((s.log.committing = true → s.log.outstanding = 0 ∧ ∀ p, (s.pc p).isInOp = false) ∧
      s.halted ≠ some .committing ∧ s.halted ≠ some .outsideTrans) ∧
    (∀ p w, s.pc p = .committed w → w.Nodup ∧ (∀ b, b ∈ w ↔ ∃ o ∈ s.group, b ∈ o.blocks) ∧
      ∀ o ∈ s.group, o.ended = true) ∧ ∀ p, s.pc p = .sleeping → (s.log.committing = true ∨ s.log.full) ∧
      ((∃ q, (s.pc q).isInOp = true) ∨ ∃ q, (s.pc q).isCommit = true) := by
  have hinv := logInv_of_run h
  refine ⟨⟨fun hc => ⟨?_, fun p => ?_⟩, hinv.halted.2, hinv.halted.1⟩, fun p w hp => ?_, ?_⟩
  · rw [hinv.outstanding, hinv.commit_idle hc]
    rfl
  · cases hp : (s.pc p).isInOp with
    | false => rfl
    | true => rw [hinv.not_committing hp] at hc; cases hc
  · have hw := hinv.committed p w hp
    subst hw
    refine ⟨hinv.nodup, hinv.blocks, fun o ho => ?_⟩
    have hc : s.log.committing = true := hinv.committing_iff.mpr ⟨p, by rw [hp]; rfl⟩
    cases he : o.ended with
    | true => rfl
    | false =>
      have hact := mem_actives.mpr ⟨ho, he⟩
      rw [← LogSys.active_eq, hinv.commit_idle hc] at hact
      cases hact
  · intro p hp
    have hsl := hinv.sleeping p hp
    refine ⟨hsl, ?_⟩
    cases hc : s.log.committing with
    | true => exact Or.inr (hinv.committing_iff.mp hc)
    | false =>
      left
      rcases hsl with h1 | h1
      · rw [hc] at h1; cases h1
      -- With no operation in progress the header is empty, and `begin_op` would admit.
      · have hne : s.active ≠ [] := by
          intro ha
          have hg := hinv.idle hc ha
          have hb : s.log.lh.blocks = [] := by
            apply List.eq_nil_iff_forall_not_mem.mpr
            intro b hb
            obtain ⟨o, ho, _⟩ := (hinv.blocks b).mp hb
            rw [hg] at ho
            cases ho
          have hn : s.log.lh.n = 0 := by rw [← LogHeader.length_blocks, hb]; rfl
          have hout := hinv.outstanding
          rw [ha] at hout
          simp only [Log.full, hn, hout, List.length_nil, MAXOPBLOCKS, LOGSIZE] at h1
          omega
        obtain ⟨o, ho⟩ := List.exists_mem_of_ne_nil _ hne
        exact ⟨o.pid, (hinv.inOp_iff o.pid).mpr ⟨o, ho, rfl⟩⟩

/-- Two operations, one of which logs a block. The last to end commits it while
a third process sleeps. -/
def twoOps : List LogEvent :=
  [.beginOp 0, .beginOp 1, .logCheck 0 60, .logAppend 0, .endOp 0, .endOp 1, .beginOp 2,
    .commitStep 1, .commitStep 1]

theorem group_commit_twoOps :
    ∃ s, run LogSys.step (LogSys.init 2 LOGSIZE) twoOps = some s ∧ s.pc 1 = .committed [60] ∧
      s.pc 2 = .sleeping ∧ s.log.outstanding = 0 ∧ ∀ o ∈ s.group, o.ended = true := by
  have hs : (run LogSys.step (LogSys.init 2 LOGSIZE) twoOps).map
      (fun s => (s.pc 1, s.pc 2, s.log.committing)) = some (.committed [60], .sleeping, true) := by
    decide +kernel
  obtain ⟨s, h, hv⟩ := Option.map_eq_some_iff.mp hs
  simp only [Prod.mk.injEq] at hv
  have hg := group_commit h
  exact ⟨s, h, hv.1, hv.2.1, (hg.1.1 hv.2.2).1, (hg.2.1 1 [60] hv.1).2.2⟩

end Xv6
