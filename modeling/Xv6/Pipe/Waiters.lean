import Xv6.Pipe.Basic

/-!
# Processes asleep at a pipe

A process asleep on `&p->nread` should find the pipe empty and its write end open, and
one asleep on `&p->nwrite` should find it full and its read end open: otherwise it was
not woken up when it could have gone on.

One way out of the two loops breaks this. `pipewrite` owes the readers a wakeup for
the bytes it has stored since it got the lock. It pays before it sleeps and before it
returns `n`, but not when it finds the pipe full and returns -1, because it was killed
or the read end is closed. `Pays` excludes just these turns, and between them the
property holds and fails exactly as `Pays` says.
-/

namespace Xv6.Pipe

open Table Trans

variable {κ : Type} [DecidableEq κ]

/-- No process sleeps that could go on. -/
structure NoneStranded (s : Sys κ) : Prop where
  reader : ∀ k, (s.proc k).chan = some .nread → s.pipe.Empty ∧ s.pipe.writeopen = true
  writer : ∀ k, (s.proc k).chan = some .nwrite → s.pipe.Full ∧ s.pipe.readopen = true

/-- The event is no turn of a killed writer, or of a writer to a closed pipe, that has more
bytes left than a pipe holds while a reader is asleep. -/
def Pays (s : Sys κ) (e : Event κ) : Prop :=
  ∀ k addr n i, s.runs e = some (k, .write addr n i) → (PIPESIZE : Int) < n - i →
    (s.pipe.readopen = false ∨ (s.proc k).killed = true) → ∀ r, (s.proc r).chan ≠ some .nread

structure Sound (s : Sys κ) : Prop where
  bytes : ∃ put got, Holds s.pipe put got
  awake : ∀ k, (s.proc k).call = none → (s.proc k).chan = none

variable {s t : Sys κ} {e : Event κ} {k r : κ} {c : Call} {d : Chan} {p : Pipe}

omit [DecidableEq κ] in
theorem Sound.runs_awake (h : Sound s) (hruns : Runs s e k c) : (s.proc k).chan = none := by
  cases hruns with
  | read hcall => exact h.awake _ hcall
  | write hcall => exact h.awake _ hcall
  | resume hchan hcall => exact hchan

theorem apply_chan {tu : Turn} (h : ((s.apply k tu).proc r).chan = some d) :
    (r = k ∧ ∃ c, tu.next = .sleep d c) ∨ (r ≠ k ∧ (s.proc r).chan = some d ∧ tu.wakes ≠ some d) := by
  dsimp only [Sys.apply] at h
  rw [upd_apply] at h
  split at h
  · rename_i hr
    refine .inl ⟨hr, ?_⟩
    cases hnext : tu.next with
    | ret v =>
      rw [hnext] at h
      cases h
    | sleep chan c =>
      rw [hnext] at h
      cases h
      exact ⟨c, rfl⟩
  · rename_i hr
    exact .inr ⟨hr, wakeup?_chan h⟩

omit [DecidableEq κ] in
theorem wakeup?_none_chan {proc : κ → Proc} {o : Option Chan} (h : (proc k).chan = none) :
    (wakeup? proc o k).chan = none := by
  cases hc : (wakeup? proc o k).chan with
  | none => rfl
  | some d =>
    rw [(wakeup?_chan hc).1] at h
    cases h

theorem sound_step (hstep : step s e = some t) (h : Sound s) : Sound t := by
  obtain ⟨put, got, hbytes⟩ := h.bytes
  cases step_cases hstep with
  | close hopen =>
    refine ⟨⟨put, got, ?_⟩, fun j hj => ?_⟩
    · unfold pipeclose
      split
      · exact hbytes
      · exact hbytes
    · have hcall : (s.proc j).call = none := (wakeup?_call s.proc (some _) j).symm.trans hj
      exact wakeup?_none_chan (o := some _) (h.awake j hcall)
  | @kill k =>
    refine ⟨⟨put, got, hbytes⟩, fun j hj => ?_⟩
    dsimp only [kill] at hj ⊢
    rw [upd_apply] at hj ⊢
    split
    · rfl
    · rename_i hjk
      rw [if_neg hjk] at hj
      exact h.awake j hj
  | @turn _ k c hruns =>
    refine ⟨⟨_, _, hbytes.turn (s.proc k).killed c⟩, fun j hj => ?_⟩
    dsimp only [Sys.apply] at hj ⊢
    rw [upd_apply] at hj ⊢
    split
    · rename_i hjk
      rw [if_pos hjk] at hj
      cases hnext : (s.turn k c).next with
      | ret v => rfl
      | sleep chan c' =>
        rw [hnext] at hj
        cases hj
    · rename_i hjk
      rw [if_neg hjk, wakeup?_call] at hj
      exact wakeup?_none_chan (h.awake j hj)

omit [DecidableEq κ] in
theorem sound_boot (data : Nat → UInt8) : Sound (boot data : Sys κ) :=
  ⟨⟨[], [], Fifo.Holds.init data⟩, fun _ _ => rfl⟩

theorem Empty.not_full (h : p.Empty) : ¬ p.Full := by
  intro hfull
  have hn : p.nwrite.toNat = (p.nread + UInt32.ofNat PIPESIZE).toNat := congrArg UInt32.toNat hfull
  rw [← h, UInt32.toNat_add, UInt32.toNat_ofNat'] at hn
  have := p.nread.toNat_lt
  simp only [PIPESIZE] at hn
  omega

theorem copyIn_empty {put got : List UInt8} (h : Holds p put got) (hempty : p.Empty)
    (addr : Nat → UInt8) (m i : Nat) : (p.copyIn addr m i).1.length < m ↔ PIPESIZE < m := by
  obtain ⟨l, hl, hbytes, hfull⟩ := copyIn_bytes addr m i p
  have hlen : (p.copyIn addr m i).1.length = l := by
    rw [hbytes, List.length_map, List.length_range']
  have hin := h.copyIn addr m i
  have hsame : got.length = put.length := congrArg List.length ((h.eq_iff pipesize_lt).mp hempty)
  have hroom := hin.room
  rw [List.length_append, hlen] at hroom
  constructor
  · intro hlt
    have hput := (hin.full_iff pipesize_lt).mp (hfull (hlen ▸ hlt))
    rw [List.length_append, hlen] at hput
    omega
  · intro hlt
    omega

omit [DecidableEq κ] in
theorem NoneStranded.copyIn (h : NoneStranded s) (hr : (s.proc r).chan = some .nwrite)
    (addr : Nat → UInt8) (m i : Nat) :
    (s.pipe.copyIn addr m i).2.Full ∧ (s.pipe.copyIn addr m i).2.readopen = true := by
  rw [copyIn_full addr (h.writer r hr).1]
  exact h.writer r hr

theorem read_noneStranded (h : NoneStranded s) (n : Int) :
    NoneStranded (s.apply k (s.turn k (.read n))) := by
  simp only [Sys.turn, Call.turn, piperead]
  split
  · rename_i hwait
    split
    · constructor
      · intro r hr
        obtain ⟨-, c, ⟨⟩⟩ | ⟨-, hs, -⟩ := apply_chan hr
        exact h.reader r hs
      · intro r hr
        obtain ⟨-, c, ⟨⟩⟩ | ⟨-, hs, -⟩ := apply_chan hr
        exact h.writer r hs
    · constructor
      · intro r hr
        exact hwait
      · intro r hr
        obtain ⟨-, c, ⟨⟩⟩ | ⟨-, hs, -⟩ := apply_chan hr
        exact h.writer r hs
  · -- no reader is asleep, since this one need not wait, and every writer is woken up
    rename_i hgo
    constructor
    · intro r hr
      obtain ⟨-, c, ⟨⟩⟩ | ⟨-, hs, -⟩ := apply_chan hr
      exact absurd (h.reader r hs) hgo
    · intro r hr
      obtain ⟨-, c, ⟨⟩⟩ | ⟨-, -, hne⟩ := apply_chan hr
      exact absurd rfl hne

theorem write_noneStranded (h : NoneStranded s) (hsound : Sound s) {addr : Nat → UInt8} {n : Int}
    {i : Nat} (hk : (s.proc k).chan = none) : NoneStranded (s.apply k (s.turn k (.write addr n i))) ↔
      ((PIPESIZE : Int) < n - i → (s.pipe.readopen = false ∨ (s.proc k).killed = true) →
        ∀ r, (s.proc r).chan ≠ some .nread) := by
  obtain ⟨put, got, hbytes⟩ := hsound.bytes
  obtain ⟨l, hl, hstored, hstop⟩ := copyIn_bytes addr (n.toNat - i) i s.pipe
  have hlen : (s.pipe.copyIn addr (n.toNat - i) i).1.length = l := by
    rw [hstored, List.length_map, List.length_range']
  have hopen := (copyIn_open addr (n.toNat - i) i s.pipe).1
  -- with a reader asleep the pipe is empty, and the loop stops early iff too many bytes are left
  have hreader : ∀ r, (s.proc r).chan = some .nread →
      (l < n.toNat - i ↔ PIPESIZE < n.toNat - i) := by
    intro r hr
    have := copyIn_empty hbytes (h.reader r hr).1 addr (n.toNat - i) i
    rwa [hlen] at this
  simp only [Sys.turn, Call.turn, pipewrite, hlen]
  split
  · rename_i hlt
    have hfull : (s.pipe.copyIn addr (n.toNat - i) i).2.Full := hstop (by omega)
    split
    · rename_i hfail
      rw [hopen] at hfail
      constructor
      · intro hafter _ _ r hr
        have hrk : r ≠ k := by
          rintro rfl
          rw [hk] at hr
          cases hr
        have hchan : ((s.apply k ⟨(s.pipe.copyIn addr (n.toNat - i) i).2,
            (s.pipe.copyIn addr (n.toNat - i) i).1, [], none, .ret (-1)⟩).proc r).chan =
              some .nread := by
          dsimp only [Sys.apply, wakeup?]
          rw [upd_ne _ _ hrk]
          exact hr
        exact (hafter.reader r hchan).1.not_full hfull
      · intro hpays
        constructor
        · intro r hr
          obtain ⟨-, c, ⟨⟩⟩ | ⟨-, hs, -⟩ := apply_chan hr
          have := (hreader r hs).mp (by omega)
          exact absurd hs (hpays (by omega) hfail r)
        · intro r hr
          obtain ⟨-, c, ⟨⟩⟩ | ⟨-, hs, -⟩ := apply_chan hr
          exact h.copyIn hs addr _ i
    · rename_i hgo
      rw [hopen] at hgo
      refine ⟨fun _ _ hfail => absurd hfail hgo, fun _ => ⟨?_, ?_⟩⟩
      · intro r hr
        obtain ⟨-, c, ⟨⟩⟩ | ⟨-, -, hne⟩ := apply_chan hr
        exact absurd rfl hne
      · intro r hr
        refine ⟨hfull, hopen.trans ?_⟩
        cases hro : s.pipe.readopen with
        | true => rfl
        | false => exact absurd (.inl hro) hgo
  · rename_i hge
    constructor
    · intro _ hmany _ r hr
      have := (hreader r hr).mpr (by simp only [PIPESIZE] at hmany ⊢; omega)
      omega
    · intro _
      constructor
      · intro r hr
        obtain ⟨-, c, ⟨⟩⟩ | ⟨-, -, hne⟩ := apply_chan hr
        exact absurd rfl hne
      · intro r hr
        obtain ⟨-, c, ⟨⟩⟩ | ⟨-, hs, -⟩ := apply_chan hr
        exact h.copyIn hs addr _ i

omit [DecidableEq κ] in
theorem close_noneStranded (h : NoneStranded s) (writable : Bool) :
    NoneStranded (pipeclose s writable) := by
  cases writable with
  | true =>
    refine ⟨fun r hr => ?_, fun r hr => h.writer r (wakeup_chan hr).1⟩
    exact absurd rfl (wakeup_chan hr).2
  | false =>
    refine ⟨fun r hr => h.reader r (wakeup_chan hr).1, fun r hr => ?_⟩
    exact absurd rfl (wakeup_chan hr).2

theorem kill_noneStranded (h : NoneStranded s) (k : κ) : NoneStranded (kill s k) := by
  have hasleep : ∀ r d, ((kill s k).proc r).chan = some d → (s.proc r).chan = some d := by
    intro r d hr
    dsimp only [kill] at hr
    rw [upd_apply] at hr
    split at hr
    · cases hr
    · exact hr
  exact ⟨fun r hr => h.reader r (hasleep r _ hr), fun r hr => h.writer r (hasleep r _ hr)⟩

theorem noneStranded_step (hstep : step s e = some t) (hsound : Sound s) (h : NoneStranded s) :
    NoneStranded t ↔ Pays s e := by
  cases step_cases hstep with
  | close hopen => exact ⟨fun _ => by rintro k addr n i ⟨⟩, fun _ => close_noneStranded h _⟩
  | kill => exact ⟨fun _ => by rintro k addr n i ⟨⟩, fun _ => kill_noneStranded h _⟩
  | @turn _ k c hruns =>
    unfold Pays
    simp only [hruns, Option.some.injEq, Prod.mk.injEq]
    cases c with
    | read n => exact ⟨fun _ => by rintro k addr n i ⟨-, ⟨⟩⟩, fun _ => read_noneStranded h n⟩
    | write addr n i =>
      rw [write_noneStranded h hsound (hsound.runs_awake (runs_cases hruns))]
      constructor
      · rintro hpays k' addr' n' i' ⟨rfl, hc⟩
        cases hc
        exact hpays
      · intro hpays
        exact hpays k addr n i ⟨rfl, rfl⟩

/-- In a run whose turns all pay, no process sleeps at the pipe that could go on, and the next
step keeps it so exactly if it pays. -/
theorem no_stranded_waiter {data : Nat → UInt8} {es : List (Event κ)}
    (hrun : run step (boot data) es = some s) (hpays : Always step Pays (boot data) es) :
    NoneStranded s ∧ ∀ e t, step s e = some t → (NoneStranded t ↔ Pays s e) := by
  have hboth : Sound s ∧ NoneStranded s := by
    refine run_invariant_always (P := fun s => Sound s ∧ NoneStranded s) ?_ hrun hpays
      ⟨sound_boot data, by rintro r ⟨⟩, by rintro r ⟨⟩⟩
    rintro s e t hstep hpay ⟨hsound, h⟩
    exact ⟨sound_step hstep hsound, (noneStranded_step hstep hsound h).mpr hpay⟩
  exact ⟨hboth.2, fun e t hstep => noneStranded_step hstep hboth.1 hboth.2⟩

/-- A reader sleeps at the empty pipe, a writer is killed and then writes 513 bytes: it fills
the pipe, returns -1, and the reader sleeps on. -/
theorem stranded_reader : ∃ s : Sys Bool, run step (boot fun _ => 0)
      [.read true 1, .kill false, .write false (fun _ => 7) 513] = some s ∧
    (s.proc true).chan = some .nread ∧ s.pipe.nread = 0 ∧ s.pipe.nwrite = 512 ∧ ¬ s.pipe.Empty := by
  refine ⟨_, rfl, ?_⟩
  decide +kernel

/-- A reader waits, a writer stores two bytes and is killed, and the reader goes on. -/
theorem no_stranded_waiter_two : ∃ s : Sys Bool, run step (boot fun _ => 0)
      [.read true 1, .write false (fun _ => 7) 2, .kill false, .resume true] = some s ∧ NoneStranded s := by
  refine ⟨_, rfl, (@no_stranded_waiter Bool _ _ (fun _ => 0)
    [.read true 1, .write false (fun _ => 7) 2, .kill false, .resume true] rfl
    (.cons ?_ rfl (.cons ?_ rfl (.cons ?_ rfl (.cons ?_ rfl trivial))))).1⟩
  · rintro k addr n i ⟨⟩
  · rintro k addr n i ⟨⟩ hmany
    exact absurd hmany (by decide)
  · rintro k addr n i ⟨⟩
  · rintro k addr n i ⟨⟩

end Xv6.Pipe
