import Xv6.Pipe.Basic

/-!
# Pipes lose nothing

The history of a run lists the bytes stored, with their writers, and the bytes
delivered to readers, both in the order of the turns at the lock. `Lossless` is the
invariant: the pipe holds exactly the bytes stored and not delivered, and a writer in
the middle of a call has stored the first `i` bytes of its buffer since the call began.
-/

namespace Xv6.Pipe

open Table Trans

variable {κ : Type} [DecidableEq κ]

structure Trace (κ : Type) where
  /-- The bytes stored, each with the process that stored it. -/
  stored : List (κ × UInt8)
  delivered : List UInt8
  /-- How many bytes had been stored when a process last entered `pipewrite`. -/
  mark : κ → Nat

namespace Trace

def init : Trace κ := ⟨[], [], fun _ => 0⟩

def bytes (tr : Trace κ) : List UInt8 := tr.stored.map Prod.snd

/-- What process `k` has stored since it last entered `pipewrite`. -/
def since (tr : Trace κ) (k : κ) : List UInt8 :=
  ((tr.stored.drop (tr.mark k)).filter fun x => x.1 = k).map Prod.snd

/-- The history when an event gets the lock, before its turn. -/
def begun (tr : Trace κ) : Event κ → Trace κ
  | .write k _ _ => { tr with mark := upd tr.mark k tr.stored.length }
  | _ => tr

/-- The history with a turn of process `k`. -/
def add (tr : Trace κ) (k : κ) (t : Turn) : Trace κ :=
  { tr with
    stored := tr.stored ++ t.stored.map fun b => (k, b)
    delivered := tr.delivered ++ t.copied }

omit [DecidableEq κ] in
theorem bytes_add (tr : Trace κ) (k : κ) (t : Turn) : (tr.add k t).bytes = tr.bytes ++ t.stored := by
  simp [bytes, add, Function.comp_def]

theorem since_add (tr : Trace κ) (k : κ) (t : Turn) {j : κ} (h : tr.mark j ≤ tr.stored.length) :
    (tr.add k t).since j = tr.since j ++ if j = k then t.stored else [] := by
  unfold since add
  dsimp only
  rw [List.drop_append_of_le_length h, List.filter_append, List.map_append]
  congr 1
  split
  · rename_i hjk
    subst hjk
    simp [List.filter_map, Function.comp_def]
  · rename_i hjk
    have hkj : ¬ k = j := fun h => hjk h.symm
    simp [List.filter_map, Function.comp_def, hkj]

end Trace

def note (s : Sys κ) (e : Event κ) (_ : Sys κ) (tr : Trace κ) : Trace κ :=
  match s.runs e with
  | none => tr
  | some (k, c) => (tr.begun e).add k (s.turn k c)

/-- The system with the history of its run. -/
def traced : Sys κ × Trace κ → Event κ → Option (Sys κ × Trace κ) := withHistory step note

/-- A call in progress has stored the first bytes of its buffer. -/
def Call.Done (since : List UInt8) : Call → Prop
  | .read _ => True
  | .write addr n i => i ≤ n.toNat ∧ since = (List.range i).map addr

structure Lossless (x : Sys κ × Trace κ) : Prop where
  holds : Holds x.1.pipe x.2.bytes x.2.delivered
  mark : ∀ k, x.2.mark k ≤ x.2.stored.length
  calls : ∀ k c, (x.1.proc k).call = some c → c.Done (x.2.since k)

theorem lossless_boot (data : Nat → UInt8) : Lossless (boot data, (Trace.init : Trace κ)) where
  holds := Fifo.Holds.init data
  mark := fun _ => Nat.le_refl 0
  calls := by rintro k c ⟨⟩

variable {s : Sys κ} {tr : Trace κ} {e : Event κ} {k : κ} {c : Call}

omit [DecidableEq κ] in
theorem runs_close {w : Bool} : s.runs (.close w) = none := rfl

omit [DecidableEq κ] in
theorem runs_kill : s.runs (.kill k) = none := rfl

theorem Trace.begun_bytes : (tr.begun e).bytes = tr.bytes := by
  cases e with
  | write => rfl
  | read | resume | close | kill => rfl

theorem Trace.begun_delivered : (tr.begun e).delivered = tr.delivered := by
  cases e with
  | write => rfl
  | read | resume | close | kill => rfl

theorem Trace.begun_mark (h : ∀ j, tr.mark j ≤ tr.stored.length) (j : κ) :
    (tr.begun e).mark j ≤ (tr.begun e).stored.length := by
  cases e with
  | write k addr n =>
    dsimp only [Trace.begun]
    rw [upd_apply]
    split
    · exact Nat.le_refl _
    · exact h j
  | read | resume | close | kill => exact h j

theorem Trace.begun_since (hruns : Runs s e k c) {j : κ} (hj : j ≠ k) :
    (tr.begun e).since j = tr.since j := by
  cases hruns with
  | write => simp only [Trace.since, Trace.begun, upd_ne _ _ hj]
  | read | resume => rfl

theorem Lossless.begun (h : Lossless (s, tr)) (hruns : Runs s e k c) : c.Done ((tr.begun e).since k) := by
  cases hruns with
  | read => trivial
  | write =>
    refine ⟨Nat.zero_le _, ?_⟩
    simp [Trace.since, Trace.begun]
  | resume hchan hcall => exact h.calls _ _ hcall

theorem Call.Done.turn {since : List UInt8} (h : c.Done since) (p : Pipe) (killed : Bool) :
    (∀ chan c', (c.turn p killed).next = .sleep chan c' → c'.Done (since ++ (c.turn p killed).stored)) ∧
      ∀ addr n i, c = .write addr n i → (c.turn p killed).next = .ret n →
        since ++ (c.turn p killed).stored = (List.range n.toNat).map addr := by
  cases c with
  | read n =>
    refine ⟨fun chan c' hnext => ?_, by rintro addr n i ⟨⟩⟩
    simp only [Call.turn, piperead] at hnext
    split at hnext
    · split at hnext
      · cases hnext
      · cases hnext
        trivial
    · cases hnext
  | write addr n i =>
    obtain ⟨hi, hsince⟩ := h
    obtain ⟨l, hl, hbytes, -⟩ := copyIn_bytes addr (n.toNat - i) i p
    have hlen : (p.copyIn addr (n.toNat - i) i).1.length = l := by
      rw [hbytes, List.length_map, List.length_range']
    have hall : since ++ (p.copyIn addr (n.toNat - i) i).1 = (List.range (i + l)).map addr := by
      rw [hsince, hbytes, ← List.map_append, List.range_eq_range', List.range_eq_range',
        ← List.range'_append_1, Nat.zero_add]
    simp only [Call.turn, pipewrite, hlen]
    constructor
    · intro chan c' hnext
      split at hnext
      · split at hnext
        · cases hnext
        · rename_i hlt hgo
          cases hnext
          simp only [if_pos hlt, if_neg hgo]
          exact ⟨by omega, hall⟩
      · cases hnext
    · intro addr' n' i' hc hnext
      cases hc
      split at hnext
      · rename_i hlt
        split at hnext
        · cases hnext
          omega
        · cases hnext
      · rename_i hge
        simp only [if_neg hge]
        rw [hall]
        congr 2
        omega

theorem lossless_step {x y : Sys κ × Trace κ} (hstep : traced x e = some y) (h : Lossless x) :
    Lossless y := by
  obtain ⟨s, tr⟩ := x
  obtain ⟨t, tr'⟩ := y
  obtain ⟨hs, htr⟩ := withHistory_some hstep
  dsimp only at hs htr
  subst htr
  cases step_cases hs with
  | close hopen =>
    rw [note, runs_close]
    refine ⟨?_, h.mark, fun k c hc => h.calls k c ?_⟩
    · unfold pipeclose
      split
      · exact h.holds
      · exact h.holds
    · rw [← hc]
      exact (wakeup?_call s.proc (some _) k).symm
  | @kill k =>
    rw [note, runs_kill]
    refine ⟨h.holds, h.mark, fun j c hc => h.calls j c ?_⟩
    dsimp only [kill] at hc
    rw [upd_apply] at hc
    split at hc
    · rename_i hj
      rw [hj]
      exact hc
    · exact hc
  | @turn _ k c hruns =>
    have hmark := Trace.begun_mark (e := e) h.mark
    have hdone := (h.begun (runs_cases hruns)).turn s.pipe (s.proc k).killed
    rw [note, hruns]
    refine ⟨?_, fun j => ?_, fun j c' hc => ?_⟩
    · rw [Trace.bytes_add, Trace.begun_bytes]
      have := h.holds.turn (s.proc k).killed c
      rw [← Trace.begun_delivered (e := e)] at this
      exact this
    · refine Nat.le_trans (hmark j) ?_
      dsimp only [Trace.add]
      rw [List.length_append]
      exact Nat.le_add_right _ _
    · rw [Trace.since_add _ _ _ (hmark j)]
      dsimp only [Sys.apply] at hc
      rw [upd_apply] at hc
      split at hc
      · rename_i hj
        subst hj
        rw [if_pos rfl]
        cases hnext : (s.turn j c).next with
        | ret r =>
          rw [hnext] at hc
          cases hc
        | sleep chan c'' =>
          rw [hnext] at hc
          cases hc
          exact hdone.1 _ _ hnext
      · rename_i hj
        rw [if_neg hj, List.append_nil, Trace.begun_since (runs_cases hruns) hj]
        rw [wakeup?_call] at hc
        exact h.calls j c' hc

theorem lossless_run {data : Nat → UInt8} {es : List (Event κ)} {x : Sys κ × Trace κ}
    (hrun : run traced (boot data, Trace.init) es = some x) : Lossless x :=
  run_invariant (fun _ _ _ => lossless_step) hrun (lossless_boot data)

theorem piperead_zero {p : Pipe} {killed : Bool} {n : Int} (hn : 0 < n)
    (h : (p.piperead killed n).next = .ret 0) :
    p.writeopen = false ∧ p.Empty ∧ (p.piperead killed n).pipe = p := by
  unfold piperead at h ⊢
  split at h
  · split at h
    · cases h
    · cases h
  · rename_i hne
    obtain ⟨m, hm⟩ : ∃ m, n.toNat = m + 1 := ⟨n.toNat - 1, by omega⟩
    rw [if_neg hne]
    rw [hm] at h ⊢
    by_cases hempty : p.Empty
    · refine ⟨?_, hempty, ?_⟩
      · exact Bool.eq_false_iff.mpr fun hw => hne ⟨hempty, hw⟩
      · dsimp only
        rw [copyOut, if_pos hempty]
    · -- a byte was copied, so the value is positive
      rw [copyOut, if_neg hempty] at h
      simp only [List.length_cons, Next.ret.injEq] at h
      omega

/-- A pipe is a lossless queue over runs of any length, with the counters wrapping around: the
counters differ by at most `PIPESIZE`, what was delivered is a prefix of what was stored, and
every writer stores the bytes of its buffer in their order. A write that returns `n` has stored
its `n` bytes, and a read of a positive number of bytes returns 0 only if the write end is closed
and everything stored was delivered. -/
theorem pipe_lossless {data : Nat → UInt8} {es : List (Event κ)} {s : Sys κ} {tr : Trace κ}
    (hrun : run traced (boot data, Trace.init) es = some (s, tr)) :
    (s.pipe.nwrite - s.pipe.nread).toNat ≤ PIPESIZE ∧ tr.delivered <+: tr.bytes ∧
    (∀ k addr n i, (s.proc k).call = some (.write addr n i) → tr.since k = (List.range i).map addr) ∧
    ∀ e t tr', traced (s, tr) e = some (t, tr') →
      ∀ k c r, s.runs e = some (k, c) → (s.turn k c).next = .ret r →
        (∀ addr n i, c = .write addr n i → r = n → tr'.since k = (List.range n.toNat).map addr) ∧
        ∀ n, c = .read n → 0 < n → r = 0 → t.pipe.writeopen = false ∧ tr'.delivered = tr'.bytes := by
  have h := lossless_run hrun
  refine ⟨?_, h.holds.taken, fun k addr n i hc => (h.calls k _ hc).2, ?_⟩
  · rw [h.holds.sub_toNat pipesize_lt]
    have := h.holds.room
    omega
  intro e t tr' hstep k c r hruns hret
  have hnext := lossless_step hstep h
  obtain ⟨hs, htr⟩ := withHistory_some hstep
  dsimp only at hs htr
  rw [note, hruns] at htr
  dsimp only at htr
  constructor
  · rintro addr n i rfl rfl
    rw [htr, Trace.since_add _ _ _ (Trace.begun_mark h.mark k),
      if_pos rfl]
    exact ((h.begun (runs_cases hruns)).turn _ _).2 addr r i rfl hret
  · rintro n rfl hn rfl
    obtain ⟨hclosed, hempty, hsame⟩ := piperead_zero hn hret
    have hpipe : t.pipe = s.pipe := by
      cases step_cases hs with
      | close => cases hruns
      | kill => cases hruns
      | turn hruns' =>
        rw [hruns] at hruns'
        cases hruns'
        exact hsame
    refine ⟨by rw [hpipe, hclosed], ?_⟩
    have := hnext.holds.eq_iff pipesize_lt
    dsimp only at this
    rw [hpipe] at this
    exact this.mp hempty

/-- A writer stores three bytes, and a reader that asks for two gets the first two. -/
theorem pipe_lossless_two : ∃ x : Sys Bool × Trace Bool, run traced (boot fun _ => 0, Trace.init)
      [.write false (fun i => UInt8.ofNat (65 + i)) 3, .read true 2] = some x ∧
    x.2.delivered = [65, 66] ∧ x.2.delivered <+: x.2.bytes :=
  ⟨_, rfl, rfl, (@pipe_lossless Bool _ (fun _ => 0)
    [.write false (fun i => UInt8.ofNat (65 + i)) 3, .read true 2] _ _ rfl).2.1⟩

end Xv6.Pipe
