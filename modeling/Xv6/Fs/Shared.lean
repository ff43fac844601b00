import Xv6.Fs.Filewrite
import Mathlib.Algebra.Order.BigOperators.Group.Finset
import Mathlib.Data.List.Flatten

/-!
# Descriptors that processes share

Any number of processes write through one open file, each with a sequence of calls
of `filewrite` of one piece. A call has three steps, and those of different
processes interleave: `begin_op`, the section in which the inode is locked, and
`end_op`.

The invariant is that the offset of the file is its size, so that every locked
section appends, and that what is written is what the processes passed, in the order
of the locked sections.
-/

namespace Xv6.Shared

open Hoare Table Bytes Trans

/-! ## The system -/

inductive Pc where
  | idle
  /-- After `begin_op`, about to lock the inode. -/
  | begun (src : List UInt8)
  /-- After `iunlock`, with what `writei` returned. -/
  | wrote (r : Int)
deriving DecidableEq, Repr

/-- The buffer that the process has yet to write. -/
def Pc.pending : Pc → List (List UInt8)
  | .idle => []
  | .begun src => [src]
  | .wrote _ => []

/-- How many bytes that is. -/
def Pc.left (c : Pc) : Nat := c.pending.flatten.length

@[simp] theorem left_idle : Pc.idle.left = 0 := rfl
@[simp] theorem left_begun (src : List UInt8) : (Pc.begun src).left = src.length := by
  simp [Pc.left, Pc.pending]
@[simp] theorem left_wrote (r : Int) : (Pc.wrote r).left = 0 := rfl

/-- The operations the process has open. -/
def Pc.ops : Pc → Nat
  | .idle => 0
  | .begun _ => 1
  | .wrote _ => 1

/-- The file system, the processes, and the buffers written so far in the order of the
locked sections, with who wrote each. -/
structure Sys where
  fs : Fs
  pc : Fin NPROC → Pc
  written : List (Fin NPROC × List UInt8)

inductive Event where
  /-- Call `filewrite` with a buffer, up to the end of `begin_op`. With nothing to
  write the call returns at once. -/
  | call (p : Fin NPROC) (src : List UInt8)
  /-- The section in which the inode is locked. -/
  | write (p : Fin NPROC)
  /-- `end_op`, and return. -/
  | ret (p : Fin NPROC)
deriving DecidableEq, Repr

/-- The process `p` writes `src`. -/
def Sys.write (f : Fin NFILE) (x : Sys) (p : Fin NPROC) (src : List UInt8) : Option Sys :=
  match lockedWrite f src { x.fs with cur := p } with
  | .ok (r, t) => some
      { fs := t
        pc := upd x.pc p (.wrote r)
        written := if r < 0 then x.written else x.written ++ [(p, src)] }
  | .error _ => none

def step (f : Fin NFILE) (x : Sys) : Event → Option Sys
  | .call p src =>
    if x.pc p = .idle ∧ src.length ≤ filewriteMax then
      if src.length = 0 then some { x with written := x.written ++ [(p, src)] }
      else
        match beginOp x.fs with
        | .ok (_, t) => some { x with fs := t, pc := upd x.pc p (.begun src) }
        | .error _ => none
    else none
  | .write p =>
    match x.pc p with
    | .begun src => x.write f p src
    | _ => none
  | .ret p =>
    match x.pc p with
    | .wrote _ =>
      match endOp x.fs with
      | .ok (_, t) => some { x with fs := t, pc := upd x.pc p .idle }
      | .error _ => none
    | _ => none

/-- No process is in a call yet. -/
def start (s : Fs) : Sys := ⟨s, fun _ => .idle, []⟩

/-! ## The calls of a run -/

/-- The buffers of `p` in a list, in order. -/
def buffersOf (p : Fin NPROC) (w : List (Fin NPROC × List UInt8)) : List (List UInt8) :=
  (w.filter fun b => b.1 = p).map Prod.snd

/-- The bytes of the buffers, one buffer after the other. -/
def data (w : List (Fin NPROC × List UInt8)) : List UInt8 := (w.map Prod.snd).flatten

/-- The buffers passed to `filewrite`, with who passed each, in order. -/
def calls (es : List Event) : List (Fin NPROC × List UInt8) :=
  es.filterMap fun
    | .call p src => some (p, src)
    | _ => none

variable {f : Fin NFILE} {k : Fin NINODE} {i : Nat} {s : Fs} {x y : Sys} {es : List Event}

/-! ## The invariant -/

/-- What holds after the events `es` of a run from `s`. -/
structure Inv (f : Fin NFILE) (k : Fin NINODE) (i : Nat) (s : Fs) (es : List Event) (x : Sys) : Prop where
  writes : x.fs.Writes f k i
  bytes : x.fs.bytes i = s.bytes i ++ data x.written
  off : (x.fs.ftable f).off = (x.fs.bytes i).length
  order : ∀ p, buffersOf p x.written ++ (x.pc p).pending = buffersOf p (calls es)
  total : (data x.written).length + ∑ p, (x.pc p).left = (data (calls es)).length
  ops : x.fs.log.outstanding = s.log.outstanding + (∑ p, (x.pc p).ops : Nat)

theorem inv_start (h : s.Writes f k i) (hoff : (s.ftable f).off = (s.bytes i).length) :
    Inv f k i s [] (start s) where
  writes := h
  bytes := (List.append_nil _).symm
  off := hoff
  order := fun _ => rfl
  total := by simp [start, data, calls]
  ops := by simp [start, Pc.ops]

theorem buffersOf_append (p : Fin NPROC) (w w' : List (Fin NPROC × List UInt8)) :
    buffersOf p (w ++ w') = buffersOf p w ++ buffersOf p w' := by
  simp [buffersOf]

@[simp] theorem buffersOf_singleton (p q : Fin NPROC) (src : List UInt8) :
    buffersOf p [(q, src)] = if q = p then [src] else [] := by
  by_cases h : q = p <;> simp [buffersOf, h]

theorem data_append (w w' : List (Fin NPROC × List UInt8)) : data (w ++ w') = data w ++ data w' := by
  simp [data]

@[simp] theorem data_singleton (b : Fin NPROC × List UInt8) : data [b] = b.2 := by
  simp [data]

theorem calls_append (es es' : List Event) : calls (es ++ es') = calls es ++ calls es' := by
  simp [calls, List.filterMap_append]

theorem count_buffersOf (p : Fin NPROC) (b : List UInt8) (w : List (Fin NPROC × List UInt8)) :
    (buffersOf p w).count b = w.count (p, b) := by
  induction w with
  | nil => rfl
  | cons c w ih =>
    obtain ⟨q, d⟩ := c
    rw [← List.singleton_append, buffersOf_append, List.count_append, List.count_append, ih,
      buffersOf_singleton]
    congr 1
    by_cases hq : q = p
    · by_cases hd : d = b <;> simp [hq, hd]
    · simp [hq]

theorem perm_of_buffersOf {w w' : List (Fin NPROC × List UInt8)}
    (h : ∀ p, buffersOf p w = buffersOf p w') : w.Perm w' := by
  refine List.perm_iff_count.mpr fun b => ?_
  rw [← count_buffersOf, ← count_buffersOf, h]

theorem sum_left (pc : Fin NPROC → Pc) (p : Fin NPROC) (v : Pc) :
    (∑ q, (upd pc p v q).left) + (pc p).left = (∑ q, (pc q).left) + v.left :=
  sum_upd Pc.left pc v (Finset.mem_univ p)

theorem sum_ops (pc : Fin NPROC → Pc) (p : Fin NPROC) (v : Pc) :
    (∑ q, (upd pc p v q).ops) + (pc p).ops = (∑ q, (pc q).ops) + v.ops :=
  sum_upd Pc.ops pc v (Finset.mem_univ p)

variable {p : Fin NPROC}

theorem Inv.empty (h : Inv f k i s es x) (hp : x.pc p = .idle) :
    Inv f k i s (es ++ [.call p []]) { x with written := x.written ++ [(p, [])] } where
  writes := h.writes
  bytes := by
    rw [data_append, data_singleton, List.append_nil]
    exact h.bytes
  off := h.off
  order := fun q => by
    rw [calls_append, buffersOf_append, buffersOf_append, ← h.order q]
    by_cases hq : p = q
    · subst hq
      simp [hp, Pc.pending, calls]
    · simp [hq, calls]
  total := by
    rw [calls_append, data_append, data_append, data_singleton, List.append_nil]
    simpa [calls] using h.total
  ops := h.ops

theorem Inv.begin (h : Inv f k i s es x) (hp : x.pc p = .idle) {src : List UInt8}
    {t : Fs} (ht : beginOp x.fs = .ok ((), t)) :
    Inv f k i s (es ++ [.call p src]) { x with fs := t, pc := upd x.pc p (.begun src) } := by
  have hbegin : Wp beginOp x.fs (fun _ t => t = { x.fs with
      log := { x.fs.log with outstanding := x.fs.log.outstanding + 1 } }) fun _ => True := by
    unfold beginOp
    rw [wp_bind, wp_get]
    exact wp_ite (fun _ => wp_throw.mpr trivial) fun _ => wp_ite (fun _ => wp_throw.mpr trivial)
      fun _ => wp_set.mpr rfl
  have hts := wp_ok hbegin ht
  refine ⟨?_, ?_, ?_, fun q => ?_, ?_, ?_⟩
  · rw [hts]
    exact h.writes.withLog _
  · rw [hts]
    exact h.bytes
  · rw [hts]
    exact h.off
  · change buffersOf q x.written ++ (upd x.pc p (.begun src) q).pending = _
    rw [calls_append, buffersOf_append, ← h.order q]
    by_cases hq : q = p
    · subst hq
      simp [hp, Pc.pending, calls]
    · rw [upd_ne _ _ hq]
      simp [calls, Ne.symm hq]
  · have hsum := sum_left x.pc p (.begun src)
    have hcalls : data (calls [Event.call p src]) = src := by simp [calls]
    rw [hp, left_idle, left_begun] at hsum
    rw [calls_append, data_append, List.length_append, ← h.total, hcalls]
    dsimp only
    omega
  · have hsum := sum_ops x.pc p (.begun src)
    rw [hp, show Pc.idle.ops = 0 from rfl, show (Pc.begun src).ops = 1 from rfl] at hsum
    have hold := h.ops
    dsimp only
    rw [hts]
    dsimp only
    omega

theorem Inv.write (h : Inv f k i s es x) (hout : 0 ≤ s.log.outstanding)
    (hmax : (s.bytes i).length + (data (calls es)).length ≤ MAXFILE * BSIZE)
    {src : List UInt8} (hp : x.pc p = .begun src) (hy : x.write f p src = some y) :
    Inv f k i s (es ++ [.write p]) y := by
  have hw := h.writes
  have hcur : ({ x.fs with cur := p } : Fs).Writes f k i :=
    ⟨⟨hw.tidy.geom, hw.tidy.owned, hw.tidy.noHoles⟩, hw.type, hw.writable, hw.ip, hw.ref, hw.unlocked,
      hw.inum, hw.lt, hw.loaded, hw.file⟩
  have hop : ({ x.fs with cur := p } : Fs).InOp := by
    have hsum := Finset.single_le_sum (f := fun q => (x.pc q).ops) (fun _ _ => Nat.zero_le _)
      (Finset.mem_univ p)
    have hone : (x.pc p).ops = 1 := by rw [hp]; rfl
    have hold := h.ops
    change 1 ≤ x.fs.log.outstanding
    omega
  have hlen : (x.fs.bytes i).length = (s.bytes i).length + (data x.written).length := by
    rw [h.bytes, List.length_append]
  have hfit : (x.fs.dinode i).Fits (x.fs.ftable f).off src.length := by
    have hsum := Finset.single_le_sum (f := fun q => (x.pc q).left) (fun _ _ => Nat.zero_le _)
      (Finset.mem_univ p)
    have hone : (x.pc p).left = src.length := by rw [hp, left_begun]
    have htotal := h.total
    refine ⟨by rw [h.off, Fs.length_bytes], ?_⟩
    rw [h.off, hlen]
    omega
  unfold Sys.write at hy
  split at hy
  next r t hrun =>
    rcases wp_ok (lockedWrite_spec hcur hop src) hrun with ⟨hno, -⟩ | ⟨-, hr, hwrote, hlog⟩
    · exact absurd hfit hno
    have hnew : t.bytes i = x.fs.bytes i ++ src := by
      have hb : t.bytes i = (x.fs.bytes i).take (x.fs.ftable f).off ++ src ++
          (x.fs.bytes i).drop ((x.fs.ftable f).off + src.length) := hwrote.bytes
      rw [hb, h.off, List.take_length, List.drop_eq_nil_of_le (Nat.le_add_right _ _), List.append_nil]
    rw [if_neg (by omega), Option.some.injEq] at hy
    subst hy
    refine ⟨hwrote.writes, ?_, ?_, fun q => ?_, ?_, ?_⟩
    · change t.bytes i = _
      rw [data_append, data_singleton, hnew, h.bytes, List.append_assoc]
    · change (t.ftable f).off = (t.bytes i).length
      rw [hwrote.ftable, Fs.advanced, upd_same, hnew, List.length_append, ← h.off]
    · rw [calls_append, buffersOf_append, buffersOf_append, ← h.order q]
      by_cases hq : p = q
      · subst hq
        simp [hp, Pc.pending, calls, buffersOf]
      · simp [hq, calls, buffersOf, upd_ne x.pc _ (Ne.symm hq)]
    · have hsum := sum_left x.pc p (.wrote r)
      have hcalls : calls [Event.write p] = [] := rfl
      rw [hp, left_begun, left_wrote] at hsum
      rw [data_append, data_singleton, calls_append, hcalls, List.append_nil, ← h.total,
        List.length_append]
      dsimp only
      omega
    · have hsum := sum_ops x.pc p (.wrote r)
      rw [hp, show (Pc.begun src).ops = 1 from rfl, show (Pc.wrote r).ops = 1 from rfl] at hsum
      have hold := h.ops
      have hsame : t.log.outstanding = x.fs.log.outstanding := by rw [hlog]
      dsimp only
      omega
  next => cases hy

theorem Inv.ret (h : Inv f k i s es x) {r : Int} (hp : x.pc p = .wrote r) {t : Fs}
    (ht : endOp x.fs = .ok ((), t)) :
    Inv f k i s (es ++ [.ret p]) { x with fs := t, pc := upd x.pc p .idle } := by
  have hend : Wp endOp x.fs (fun _ t => ∃ lg, t = { x.fs with log := lg } ∧
      lg.outstanding = x.fs.log.outstanding - 1) fun _ => True := by
    unfold endOp
    rw [wp_bind, wp_get]
    exact wp_ite (fun _ => wp_panic.mpr trivial) fun _ => wp_ite (fun _ => wp_set.mpr ⟨_, rfl, rfl⟩)
      fun _ => wp_set.mpr ⟨_, rfl, rfl⟩
  obtain ⟨lg, hts, hout⟩ := wp_ok hend ht
  refine ⟨?_, ?_, ?_, fun q => ?_, ?_, ?_⟩
  · rw [hts]
    exact h.writes.withLog _
  · rw [hts]
    exact h.bytes
  · rw [hts]
    exact h.off
  · change buffersOf q x.written ++ (upd x.pc p .idle q).pending = _
    rw [calls_append, buffersOf_append, ← h.order q]
    by_cases hq : q = p
    · subst hq
      simp [hp, Pc.pending, calls, buffersOf]
    · rw [upd_ne _ _ hq]
      simp [calls, buffersOf]
  · have hsum := sum_left x.pc p .idle
    have hcalls : calls [Event.ret p] = [] := rfl
    rw [hp, left_wrote, left_idle] at hsum
    rw [calls_append, hcalls, List.append_nil, ← h.total]
    dsimp only
    omega
  · have hsum := sum_ops x.pc p .idle
    rw [hp, show (Pc.wrote r).ops = 1 from rfl, show Pc.idle.ops = 0 from rfl] at hsum
    have hold := h.ops
    dsimp only
    rw [hts]
    dsimp only
    omega

theorem inv_step (hout : 0 ≤ s.log.outstanding) {e : Event} (hstep : step f x e = some y)
    (hmax : (s.bytes i).length + (data (calls es)).length ≤ MAXFILE * BSIZE)
    (h : Inv f k i s es x) : Inv f k i s (es ++ [e]) y := by
  cases e with
  | call p src =>
    obtain ⟨⟨hp, -⟩, hstep⟩ := Option.ite_none_right_eq_some.mp hstep
    split at hstep
    next h0 =>
      obtain rfl : src = [] := List.length_eq_zero_iff.mp h0
      cases hstep
      exact h.empty hp
    next =>
      split at hstep
      next t ht =>
        cases hstep
        exact h.begin hp ht
      next => cases hstep
  | write p =>
    simp only [step] at hstep
    split at hstep
    next src hp => exact h.write hout hmax hp hstep
    next => cases hstep
  | ret p =>
    simp only [step] at hstep
    split at hstep
    next r hp =>
      split at hstep
      next t ht =>
        cases hstep
        exact h.ret hp ht
      next => cases hstep
    next => cases hstep

theorem inv_run (hout : 0 ≤ s.log.outstanding) : ∀ (rest es : List Event) (x : Sys),
    Inv f k i s es x → run (step f) x rest = some y →
    (s.bytes i).length + (data (calls (es ++ rest))).length ≤ MAXFILE * BSIZE → Inv f k i s (es ++ rest) y
  | [], es, x, h, hrun, _ => by
    cases hrun
    rw [List.append_nil]
    exact h
  | e :: rest, es, x, h, hrun, hmax => by
    obtain ⟨z, hz, hrest⟩ := run_cons hrun
    have hsplit : es ++ e :: rest = (es ++ [e]) ++ rest := by simp
    have hle : (data (calls es)).length ≤ (data (calls (es ++ e :: rest))).length := by
      rw [calls_append, data_append, List.length_append]
      exact Nat.le_add_right _ _
    rw [hsplit] at hmax ⊢
    refine inv_run hout rest (es ++ [e]) z (inv_step hout hz ?_ h) hrest hmax
    rw [← hsplit] at hmax
    omega

/-- Processes that share a descriptor open for writing on a regular file, with the offset
at its size, lose no writes. In any interleaving of the steps of their calls, each of at
most one piece, and with all of it below the largest size, the file is the old content
followed by the buffers written, whole and in the order of the locked sections; the
offset is the size; and the buffers of each process are written in the order in which it
passed them, but for the one it has yet to write, so that when all calls have returned
the buffers written are those passed. -/
theorem shared_descriptor (h : s.Writes f k i) (hoff : (s.ftable f).off = (s.bytes i).length)
    (hout : 0 ≤ s.log.outstanding) (hrun : run (step f) (start s) es = some y)
    (hmax : (s.bytes i).length + (data (calls es)).length ≤ MAXFILE * BSIZE) :
    y.fs.bytes i = s.bytes i ++ (y.written.map Prod.snd).flatten ∧
    (y.fs.ftable f).off = (y.fs.bytes i).length ∧
    (∀ p, buffersOf p y.written ++ (y.pc p).pending = buffersOf p (calls es)) ∧
    ((∀ p, y.pc p = .idle) → (∀ p, buffersOf p y.written = buffersOf p (calls es)) ∧
      y.written.Perm (calls es)) := by
  have hinv : Inv f k i s es y := inv_run hout es [] (start s) (inv_start h hoff) hrun hmax
  refine ⟨hinv.bytes, hinv.off, hinv.order, fun hidle => ?_⟩
  have hall : ∀ p, buffersOf p y.written = buffersOf p (calls es) := by
    intro p
    have ho := hinv.order p
    rwa [hidle p, Pc.pending, List.append_nil] at ho
  exact ⟨hall, perm_of_buffersOf hall⟩

end Xv6.Shared
