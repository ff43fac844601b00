import Xv6.Log.GroupCommit
import Mathlib.Algebra.Order.BigOperators.Group.List
import Mathlib.Data.Finset.Card

/-!
# The log space reservation

`begin_op` reserves `MAXOPBLOCKS` blocks of the log for each operation it
admits, counted against `LOGSIZE`. If every operation logs at most that many
distinct blocks, the header never holds more than `LOGSIZE` of them
(`LogRes.reserve`).

`log_write` panics earlier than that. The log area that `mkfs` makes has
`LOGSIZE` blocks, and one of them is the header, so the test against
`log.size - 1` fails at `LOGSIZE - 1` blocks, and it is made before the scan
that would absorb a block listed already.
-/

namespace Xv6

open Trans

/-- The step stays within the reservation: an operation calls `log_write` on at
most `MAXOPBLOCKS` distinct blocks. -/
def LogSys.Disciplined (s : LogSys) : LogEvent → Prop
  | .logCheck p b => ∀ o ∈ s.active, o.pid = p →
      b.toNat ∈ o.blocks ∨ o.blocks.length < MAXOPBLOCKS
  | _ => True

/-- Every step of the run stays within the reservation. -/
def DisciplinedRun (s : LogSys) (es : List LogEvent) : Prop :=
  ∀ es₁ e es₂, es = es₁ ++ e :: es₂ → ∀ u, run LogSys.step s es₁ = some u → u.Disciplined e

/-- What an operation may still log. -/
def LogOp.room (o : LogOp) : Nat := MAXOPBLOCKS - o.blocks.length

structure LogRes (s : LogSys) : Prop where
  /-- The invariant of all runs. -/
  inv : LogInv s
  /-- The blocks listed and the room of the operations in progress fit in the log. -/
  reserve : s.log.lh.n + (s.active.map LogOp.room).sum ≤ LOGSIZE
  /-- A process past the tests of `log_write` is within its reservation. -/
  pending : ∀ p b, s.pc p = .logging b → ∀ o ∈ s.active, o.pid = p →
    b.toNat ∈ o.blocks ∨ o.blocks.length < MAXOPBLOCKS
  /-- No store has left `log.lh.block`. -/
  halted : s.halted ≠ some .overrun

/-! ## Sums of room -/

theorem sum_room_le (l : List LogOp) : (l.map LogOp.room).sum ≤ MAXOPBLOCKS * l.length := by
  induction l with
  | nil => simp
  | cons o l ih =>
    have h : o.room ≤ MAXOPBLOCKS := Nat.sub_le ..
    rw [List.map_cons, List.sum_cons, List.length_cons]
    simp only [MAXOPBLOCKS] at *
    omega

theorem room_logBlock_le (p b : Nat) (o : LogOp) : (logBlock p b o).room ≤ o.room := by
  by_cases hc : o.pid = p ∧ o.ended = false
  · have h : o.blocks.length ≤ (o.blocks.insert b).length := by
      by_cases hb : b ∈ o.blocks
      · rw [List.insert_of_mem hb]
      · rw [List.insert_of_not_mem hb, List.length_cons]; omega
    rw [logBlock, if_pos hc, LogOp.room, LogOp.room]
    exact Nat.sub_le_sub_left h _
  · rw [logBlock, if_neg hc]

theorem room_logBlock_lt {p b : Nat} {o : LogOp} (hp : o.pid = p) (he : o.ended = false)
    (hb : b ∉ o.blocks) (hl : o.blocks.length < MAXOPBLOCKS) : (logBlock p b o).room < o.room := by
  rw [logBlock, if_pos ⟨hp, he⟩, LogOp.room, LogOp.room, List.insert_of_not_mem hb, List.length_cons]
  omega

theorem sum_room_sublist {l l' : List LogOp} (h : l.Sublist l') :
    (l.map LogOp.room).sum ≤ (l'.map LogOp.room).sum :=
  (h.map _).sum_le_sum fun _ _ => Nat.zero_le _

section

variable {s t : LogSys}

theorem logRes_init (start size : Nat) : LogRes (LogSys.init start size) where
  inv := logInv_init start size
  reserve := Nat.zero_le _
  pending := by intro p b h; cases h
  halted := nofun

theorem LogRes.mono (h : LogRes s) (ht : LogInv t) (hact : t.active.Sublist s.active)
    (hn : t.log.lh.n ≤ s.log.lh.n) (hpc : ∀ q b, t.pc q = .logging b → s.pc q = .logging b)
    (hh : t.halted ≠ some .overrun) : LogRes t where
  inv := ht
  reserve := by
    have h1 := h.reserve
    have h2 := sum_room_sublist hact
    omega
  pending := fun p b hp o ho hop => h.pending p b (hpc p b hp) o (hact.subset ho) hop
  halted := hh

variable {p : Nat} {b : UInt32}

theorem pc_goto_logging {q : Nat} {c : LogPc} (hc : c ≠ .logging b)
    (h : (s.goto p c).pc q = .logging b) : s.pc q = .logging b := by
  rw [LogSys.goto_pc] at h
  by_cases hq : q = p
  · rw [if_pos hq] at h; exact absurd h hc
  · rwa [if_neg hq] at h

theorem pc_wakeup_logging {q : Nat}
    (h : Function.update (wakeupLog s.pc) p .out q = .logging b) : s.pc q = .logging b := by
  by_cases hq : q = p
  · subst hq; rw [Function.update_self] at h; cases h
  · rw [Function.update_of_ne hq] at h
    exact wakeupLog_eq_of_ne nofun h

theorem LogRes.beginOp (h : LogRes s) (ht : s.beginOp p = some t) : LogRes t := by
  have hinv := h.inv.beginOp ht
  unfold LogSys.beginOp at ht
  split at ht
  case isFalse => cases ht
  case isTrue hp =>
    split at ht
    case isTrue =>
      cases ht
      exact h.mono hinv (List.Sublist.refl _) (Nat.le_refl _) (fun q b => pc_goto_logging nofun)
        h.halted
    case isFalse =>
      split at ht
      case isTrue =>
        cases ht
        exact h.mono hinv (List.Sublist.refl _) (Nat.le_refl _)
          (fun q b => pc_goto_logging nofun) h.halted
      case isFalse hfull =>
        cases ht
        refine ⟨hinv, ?_, ?_, h.halted⟩
        · have hout := h.inv.outstanding
          have hsum := sum_room_le s.active
          rw [LogSys.active_eq, actives_append_new, List.map_append, List.sum_append,
            ← LogSys.active_eq]
          simp only [Log.full, hout, MAXOPBLOCKS, LOGSIZE] at hfull
          simp only [List.map_cons, List.map_nil, List.sum_cons, List.sum_nil, LogOp.room,
            List.length_nil, MAXOPBLOCKS, LOGSIZE] at *
          omega
        · intro q b hq o ho hop
          have hqp : q ≠ p := by
            rintro rfl
            simp at hq
          rw [LogSys.active_eq, actives_append_new] at ho
          rcases List.mem_append.mp ho with ho | ho
          · exact h.pending q b (by simpa [hqp] using hq) o ho hop
          · rw [List.mem_singleton] at ho
            subst ho
            exact absurd hop.symm hqp

theorem LogRes.logCheck (h : LogRes s)
    (hd : s.Disciplined (.logCheck p b)) (ht : s.logCheck p b = some t) : LogRes t := by
  have hinv := h.inv.logCheck ht
  unfold LogSys.logCheck at ht
  split at ht
  case isFalse => cases ht
  case isTrue hp =>
    split at ht
    case isTrue =>
      cases ht
      exact h.mono hinv (List.Sublist.refl _) (Nat.le_refl _) (fun _ _ hq => hq) nofun
    case isFalse =>
      split at ht
      case isTrue =>
        cases ht
        exact h.mono hinv (List.Sublist.refl _) (Nat.le_refl _) (fun _ _ hq => hq) nofun
      case isFalse =>
        cases ht
        refine ⟨hinv, h.reserve, fun q c hq o ho hop => ?_, h.halted⟩
        rw [LogSys.goto_pc] at hq
        by_cases hqp : q = p
        · rw [if_pos hqp] at hq
          cases hq
          exact hd o ho (hop.trans hqp)
        · rw [if_neg hqp] at hq
          exact h.pending q c hq o ho hop

/-- A block that the header does not list yet takes room from the operation that
logs it. -/
theorem LogRes.room_lt (h : LogRes s) (hp : s.pc p = .logging b) (hb : b.toNat ∉ s.log.lh.blocks) :
    ((s.active.map (logBlock p b.toNat)).map LogOp.room).sum < (s.active.map LogOp.room).sum := by
  obtain ⟨o, ho, hop⟩ := (h.inv.inOp_iff p).mp (by rw [hp]; rfl)
  obtain ⟨hog, hoe⟩ := mem_actives.mp ho
  have hbo : b.toNat ∉ o.blocks := fun hm => hb ((h.inv.blocks _).mpr ⟨o, hog, hm⟩)
  have hlt : o.blocks.length < MAXOPBLOCKS :=
    (h.pending p b hp o ho hop).resolve_left hbo
  rw [List.map_map]
  exact List.sum_lt_sum _ _ (fun o _ => room_logBlock_le p b.toNat o)
    ⟨o, ho, room_logBlock_lt hop hoe hbo hlt⟩

theorem LogRes.reserve_add (h : LogRes s) (hp : s.pc p = .logging b) :
    s.log.lh.scan b < LOGSIZE ∧ (s.log.lh.add b).n +
      ((s.active.map (logBlock p b.toNat)).map LogOp.room).sum ≤ LOGSIZE := by
  have hres := h.reserve
  by_cases hm : b.toNat ∈ s.log.lh.blocks
  · have hlt : s.log.lh.scan b < s.log.lh.blocks.length := List.idxOf_lt_length_of_mem hm
    have hn : (s.log.lh.add b).n = s.log.lh.n :=
      if_neg fun he => LogHeader.scan_eq_n_iff.mp he hm
    have hsum : ((s.active.map (logBlock p b.toNat)).map LogOp.room).sum
        ≤ (s.active.map LogOp.room).sum := by
      rw [List.map_map]
      exact List.sum_le_sum fun o _ => room_logBlock_le p b.toNat o
    rw [LogHeader.length_blocks] at hlt
    omega
  · have hs : s.log.lh.scan b = s.log.lh.n := LogHeader.scan_eq_n_iff.mpr hm
    have hn : (s.log.lh.add b).n = s.log.lh.n + 1 := if_pos hs
    have hsum := h.room_lt hp hm
    omega

theorem LogRes.logAppend (h : LogRes s) (ht : s.logAppend p = some t) : LogRes t := by
  have hinv := h.inv.logAppend ht
  unfold LogSys.logAppend at ht
  split at ht
  case h_2 => cases ht
  case h_1 b hp =>
    obtain ⟨hscan, hsum⟩ := h.reserve_add hp
    have hact : actives (s.group.map (logBlock p b.toNat))
        = s.active.map (logBlock p b.toNat) := actives_map_logBlock ..
    rw [if_pos hscan] at ht
    cases ht
    refine ⟨hinv, by rw [LogSys.active_eq, hact]; exact hsum, fun q c hq o ho hop => ?_, h.halted⟩
    rw [LogSys.active_eq, hact] at ho
    obtain ⟨o, ho', rfl⟩ := List.mem_map.mp ho
    have hqp : q ≠ p := by
      rintro rfl
      simp at hq
    rw [logBlock_pid] at hop
    rw [logBlock, if_neg fun hc => hqp (hop.symm.trans hc.1)]
    exact h.pending q c (by simpa [hqp] using hq) o ho' hop

theorem LogRes.endOp (h : LogRes s) (ht : s.endOp p = some t) : LogRes t := by
  have hinv := h.inv.endOp ht
  have hsub : (actives (s.group.map (endBy p))).Sublist s.active := by
    rw [actives_map_endBy]
    exact List.filter_sublist
  unfold LogSys.endOp at ht
  split at ht
  case isFalse => cases ht
  case isTrue hp =>
    simp only at ht
    split at ht
    case isTrue =>
      cases ht
      exact h.mono hinv (List.Sublist.refl _) (Nat.le_refl _) (fun _ _ hq => hq) nofun
    case isFalse =>
      split at ht
      case isTrue =>
        cases ht
        refine h.mono hinv hsub (Nat.le_refl _) (fun q b hq => ?_) h.halted
        exact pc_goto_logging (c := .writing []) (p := p) nofun hq
      case isFalse =>
        cases ht
        exact h.mono hinv hsub (Nat.le_refl _) (fun q b hq => pc_wakeup_logging hq) h.halted

theorem LogRes.commitStep (h : LogRes s) (ht : s.commitStep p = some t) : LogRes t := by
  have hinv := h.inv.commitStep ht
  unfold LogSys.commitStep at ht
  split at ht
  case h_1 w hp =>
    split at ht
    case isTrue =>
      cases ht
      exact h.mono hinv (List.Sublist.refl _) (Nat.le_refl _) (fun q b => pc_goto_logging nofun)
        h.halted
    case isFalse =>
      cases ht
      exact h.mono hinv (List.Sublist.refl _) (Nat.le_refl _) (fun q b => pc_goto_logging nofun)
        h.halted
  case h_2 hp =>
    cases ht
    refine h.mono hinv (List.nil_sublist _) (Nat.zero_le _) (fun q b hq => ?_) h.halted
    exact pc_goto_logging (c := .finishing) (p := p) nofun hq
  case h_3 hp =>
    cases ht
    exact h.mono hinv (List.Sublist.refl _) (Nat.le_refl _) (fun q b hq => pc_wakeup_logging hq)
      h.halted
  case h_4 => cases ht

theorem LogRes.step (h : LogRes s) {e : LogEvent} (hd : s.Disciplined e)
    (ht : s.step e = some t) : LogRes t := by
  unfold LogSys.step at ht
  split at ht
  case isFalse => cases ht
  case isTrue =>
    cases e with
    | beginOp p => exact h.beginOp ht
    | logCheck p b => exact h.logCheck hd ht
    | logAppend p => exact h.logAppend ht
    | endOp p => exact h.endOp ht
    | commitStep p => exact h.commitStep ht
    | kill p =>
      have hinv := h.inv.kill ht
      simp only [LogSys.kill] at ht
      split at ht
      case isTrue =>
        cases ht
        exact h.mono hinv (List.Sublist.refl _) (Nat.le_refl _)
          (fun q b => pc_goto_logging nofun) h.halted
      case isFalse => cases ht

end

theorem logRes_of_run {start size : Nat} {es : List LogEvent} {s : LogSys}
    (h : run LogSys.step (LogSys.init start size) es = some s)
    (hd : DisciplinedRun (LogSys.init start size) es) : LogRes s :=
  run_invariant_of (fun _ _ _ ht hC hres => hres.step hC ht) h hd (logRes_init start size)

/-! ## When `log_write` panics -/

theorem LogInv.card_logged {s : LogSys} (h : LogInv s) : s.logged.card = s.log.lh.n := by
  have he : s.logged = s.log.lh.blocks.toFinset := by
    ext b
    rw [LogSys.logged, List.mem_toFinset, List.mem_toFinset, h.blocks b, List.mem_flatMap]
  rw [he, List.toFinset_card_of_nodup h.nodup, LogHeader.length_blocks]

theorem step_size {s t : LogSys} {e : LogEvent} (ht : s.step e = some t) : t.log.size = s.log.size := by
  unfold LogSys.step at ht
  split at ht
  case isFalse => cases ht
  case isTrue =>
    cases e with
    | beginOp p =>
      simp only [LogSys.beginOp] at ht
      split_ifs at ht <;> cases ht <;> rfl
    | logCheck p b =>
      simp only [LogSys.logCheck] at ht
      split_ifs at ht <;> cases ht <;> rfl
    | logAppend p =>
      simp only [LogSys.logAppend] at ht
      split at ht
      · split_ifs at ht <;> cases ht <;> rfl
      · cases ht
    | endOp p =>
      simp only [LogSys.endOp] at ht
      split_ifs at ht <;> cases ht <;> rfl
    | commitStep p =>
      simp only [LogSys.commitStep] at ht
      split at ht
      · split_ifs at ht <;> cases ht <;> rfl
      · cases ht; rfl
      · cases ht; rfl
      · cases ht
    | kill p =>
      simp only [LogSys.kill] at ht
      split_ifs at ht
      cases ht
      rfl

/-- With the log area that `mkfs` makes, the first test of `log_write` fails at
`LOGSIZE - 1` blocks. -/
theorem tooBig_iff {lg : Log} (h : lg.size = LOGSIZE) : lg.tooBig ↔ LOGSIZE - 1 ≤ lg.lh.n := by
  simp only [Log.tooBig, h, LOGSIZE, MAXOPBLOCKS]
  omega

theorem step_tooBig {s t : LogSys} {e : LogEvent} (ht : s.step e = some t)
    (hh : t.halted = some .tooBig) : ∃ p b, e = .logCheck p b ∧ s.log.tooBig := by
  unfold LogSys.step at ht
  split at ht
  case isFalse => cases ht
  case isTrue hn =>
    cases e with
    | beginOp p =>
      simp only [LogSys.beginOp] at ht
      split_ifs at ht <;> cases ht <;> simp [LogSys.goto, hn] at hh
    | logCheck p b =>
      simp only [LogSys.logCheck] at ht
      split_ifs at ht with h1 h2 h3
      · exact ⟨p, b, rfl, h2⟩
      · cases ht; cases hh
      · cases ht; simp [LogSys.goto, hn] at hh
    | logAppend p =>
      simp only [LogSys.logAppend] at ht
      split at ht
      · split_ifs at ht <;> cases ht <;> simp [hn] at hh
      · cases ht
    | endOp p =>
      simp only [LogSys.endOp] at ht
      split_ifs at ht <;> cases ht <;> simp [hn] at hh
    | commitStep p =>
      simp only [LogSys.commitStep] at ht
      split at ht
      · split_ifs at ht <;> cases ht <;> simp [LogSys.goto, hn] at hh
      · cases ht; simp [hn] at hh
      · cases ht; simp [hn] at hh
      · cases ht
    | kill p =>
      simp only [LogSys.kill] at ht
      split_ifs at ht
      cases ht
      simp [LogSys.goto, hn] at hh

theorem step_logCheck_of_tooBig {s t : LogSys} {p : Nat} {b : UInt32}
    (ht : s.step (.logCheck p b) = some t) (hb : s.log.tooBig) : t.halted = some .tooBig := by
  unfold LogSys.step at ht
  split at ht
  case isFalse => cases ht
  case isTrue =>
    simp only [LogSys.logCheck, if_pos hb] at ht
    split_ifs at ht
    cases ht
    rfl

/-- No call of `log_write` in the run panics with "too big a transaction". -/
def NeverTooBig (s : LogSys) (es : List LogEvent) : Prop :=
  ∀ es₁ es₂, es = es₁ ++ es₂ → ∀ u, run LogSys.step s es₁ = some u → u.halted ≠ some .tooBig

/-- At every call of `log_write` the operations of the group have logged at most
`LOGSIZE - 2` distinct blocks so far. -/
def LeavesTwoFree (s : LogSys) (es : List LogEvent) : Prop :=
  ∀ es₁ p b es₂, es = es₁ ++ .logCheck p b :: es₂ →
    ∀ u, run LogSys.step s es₁ = some u → u.logged.card ≤ LOGSIZE - 2

/-- **The reservation and its limit.**  In every run in which each operation
calls `log_write` on at most `MAXOPBLOCKS` distinct blocks, the header never
outgrows its array. No call panics with "too big a transaction" exactly when at
each call the operations of the group have logged at most `LOGSIZE - 2` distinct
blocks so far. -/
theorem never_too_big_iff {start : Nat} {es : List LogEvent} {s : LogSys}
    (h : run LogSys.step (LogSys.init start LOGSIZE) es = some s)
    (hd : DisciplinedRun (LogSys.init start LOGSIZE) es) :
    (s.log.lh.n ≤ LOGSIZE ∧ s.halted ≠ some .overrun) ∧ (NeverTooBig (LogSys.init start LOGSIZE) es ↔
        LeavesTwoFree (LogSys.init start LOGSIZE) es) := by
  have hres := logRes_of_run h hd
  refine ⟨⟨hres.inv.le_logsize, hres.halted⟩, fun hnever es₁ p b es₂ he u hu => ?_,
    fun hfree es₁ es₂ he u hu hh => ?_⟩
  · have hsize : u.log.size = LOGSIZE :=
      run_invariant (P := fun s => s.log.size = LOGSIZE)
        (fun _ _ _ ht hs => (step_size ht).trans hs) hu rfl
    rw [(logInv_of_run hu).card_logged]
    by_contra hn
    have hbig : u.log.tooBig := (tooBig_iff hsize).mpr (by omega)
    rw [he] at h
    obtain ⟨u', hu', hrest⟩ := run_append h
    rw [hu, Option.some.injEq] at hu'
    subst hu'
    obtain ⟨v, hv, _⟩ := run_cons hrest
    refine hnever (es₁ ++ [.logCheck p b]) es₂ (by rw [he, List.append_assoc]; rfl) v
      (run_snoc hu hv) (step_logCheck_of_tooBig hv hbig)
  · rcases List.eq_nil_or_concat es₁ with rfl | ⟨es₀, e, rfl⟩
    · rw [run_nil, Option.some.injEq] at hu
      subst hu
      cases hh
    · rw [List.concat_eq_append] at hu he
      obtain ⟨u₀, hu₀, hlast⟩ := run_append hu
      obtain ⟨p, b, rfl, hbig⟩ := step_tooBig (run_singleton hlast) hh
      have hsize : u₀.log.size = LOGSIZE :=
        run_invariant (P := fun s => s.log.size = LOGSIZE)
          (fun _ _ _ ht hs => (step_size ht).trans hs) hu₀ rfl
      have hcard := hfree es₀ p b es₂ (by rw [he, List.append_assoc]; rfl) u₀ hu₀
      rw [(logInv_of_run hu₀).card_logged] at hcard
      have := (tooBig_iff hsize).mp hbig
      simp only [LOGSIZE, MAXOPBLOCKS] at *
      omega

/-! ## A run that fills the reservation -/

instance (s : LogSys) (e : LogEvent) : Decidable (s.Disciplined e) :=
  match e with
  | .logCheck p b => inferInstanceAs (Decidable (∀ o ∈ s.active, o.pid = p →
      b.toNat ∈ o.blocks ∨ o.blocks.length < MAXOPBLOCKS))
  | .beginOp _ => isTrue trivial
  | .logAppend _ => isTrue trivial
  | .endOp _ => isTrue trivial
  | .commitStep _ => isTrue trivial
  | .kill _ => isTrue trivial

/-- Check the reservation along a run. -/
def checkDisciplined : LogSys → List LogEvent → Bool
  | _, [] => true
  | s, e :: es => decide (s.Disciplined e) && match s.step e with
      | some t => checkDisciplined t es
      | none => true

theorem disciplinedRun_of_check :
    ∀ (es : List LogEvent) (s : LogSys), checkDisciplined s es = true → DisciplinedRun s es
  | [], _, _ => by
    intro es₁ e es₂ he
    simp at he
  | e :: es, s, h => by
    rw [checkDisciplined, Bool.and_eq_true, decide_eq_true_iff] at h
    intro es₁ e' es₂ he u hu
    cases es₁ with
    | nil =>
      rw [run_nil, Option.some.injEq] at hu
      rw [List.nil_append, List.cons.injEq] at he
      rw [← hu, ← he.1]
      exact h.1
    | cons f fs =>
      rw [List.cons_append, List.cons.injEq] at he
      obtain ⟨t, ht, hrest⟩ := run_cons hu
      rw [← he.1] at ht
      have h2 := h.2
      rw [ht] at h2
      exact disciplinedRun_of_check es t h2 fs e' es₂ he.2 u hrest

/-- The calls of `log_write` of one operation, on `k` distinct blocks. -/
def logCalls (p k : Nat) : List LogEvent :=
  (List.range k).flatMap fun i => [.logCheck p (UInt32.ofNat (100 * (p + 1) + i)), .logAppend p]

/-- Three operations at once. Two log ten blocks each and the third logs nine. -/
def nearlyFull : List LogEvent :=
  [.beginOp 0, .beginOp 1, .beginOp 2] ++ logCalls 0 10 ++ logCalls 1 10 ++ logCalls 2 9

/-- The tenth block of the third operation is within its reservation, and the
call panics. -/
theorem log_write_too_big : ¬ ∀ (es : List LogEvent) (s : LogSys),
      run LogSys.step (LogSys.init 2 LOGSIZE) es = some s →
      DisciplinedRun (LogSys.init 2 LOGSIZE) es → s.halted ≠ some .tooBig := by
  intro hall
  have hrun : (run LogSys.step (LogSys.init 2 LOGSIZE) (nearlyFull ++ [.logCheck 2 309])).map
      LogSys.halted = some (some .tooBig) := by decide +kernel
  have hd : checkDisciplined (LogSys.init 2 LOGSIZE) (nearlyFull ++ [.logCheck 2 309]) = true := by
    decide +kernel
  obtain ⟨s, hs, hh⟩ := Option.map_eq_some_iff.mp hrun
  exact hall _ s hs (disciplinedRun_of_check _ _ hd) hh

/-- Up to that call the run is within the limit. -/
theorem never_too_big_nearlyFull : ∃ s, run LogSys.step (LogSys.init 2 LOGSIZE) nearlyFull = some s ∧
      s.log.lh.n ≤ LOGSIZE ∧ (NeverTooBig (LogSys.init 2 LOGSIZE) nearlyFull ↔
        LeavesTwoFree (LogSys.init 2 LOGSIZE) nearlyFull) := by
  have hrun : (run LogSys.step (LogSys.init 2 LOGSIZE) nearlyFull).isSome = true := by
    decide +kernel
  have hd : checkDisciplined (LogSys.init 2 LOGSIZE) nearlyFull = true := by decide +kernel
  obtain ⟨s, hs⟩ := Option.isSome_iff_exists.mp hrun
  have h := never_too_big_iff hs (disciplinedRun_of_check _ _ hd)
  exact ⟨s, hs, h.1.1, h.2⟩

end Xv6
