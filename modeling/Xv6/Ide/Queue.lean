import Mathlib
import Xv6.Param
import Xv6.Lib.LinkedList
import Xv6.Lib.Trans

/-!
# The disk queue

`iderw()`, `idestart()` and `ideintr()` of `ide.c`. A process appends its buffer to the list
`idequeue` and starts the disk if the list was empty; the interrupt handler takes the first
buffer off the list and starts the disk for the next one. Both run under `idelock`, so each
is one step, and so is the end of `iderw()`, when its loop finds the buffer done.

The device executes one command at a time. It is given the data of a write with the command,
and it raises one interrupt when it has written or read the block.

Between two calls a buffer is used by whoever has locked it, and may be changed in any way.
The buffers that are in `iderw()` at the same time are for different blocks: there is one
buffer for a block in the buffer cache.
-/

namespace Xv6.Ide

open Table Trans LinkedList

structure Buf (β : Type) where
  valid : Bool
  dirty : Bool
  dev : Nat
  blockno : Nat
  data : β

variable {β κ : Type} {n : Nat}

def Buf.addr (b : Buf β) : Nat × Nat := (b.dev % 2, b.blockno)

/-- `(flags & (B_VALID|B_DIRTY)) == B_VALID`. -/
def Buf.Clean (b : Buf β) : Prop := b.valid = true ∧ b.dirty = false

instance (b : Buf β) : Decidable b.Clean := inferInstanceAs (Decidable (_ ∧ _))

/-- A command, with the data if it is a write. -/
structure Cmd (β : Type) where
  addr : Nat × Nat
  write : Option β

def Buf.cmd (b : Buf β) : Cmd β := ⟨b.addr, if b.dirty then some b.data else none⟩

inductive Dev (β : Type) where
  | idle
  | busy (c : Cmd β)
  /-- It has raised the interrupt, and has the data of the block. -/
  | done (c : Cmd β) (data : β)

/-- A call of `iderw()`: the buffer, and what it was when it was called. -/
structure Req (β : Type) (n : Nat) where
  buf : Fin n
  write : Bool
  data : β

structure Sys (β κ : Type) (n : Nat) where
  buf : Fin n → Buf β
  qnext : Fin n → Option (Fin n)
  idequeue : Option (Fin n)
  dev : Dev β
  disk : Nat × Nat → β
  req : κ → Option (Req β n)
  havedisk1 : Bool

/-- The buffers in the order of the calls and in the order in which commands were started. -/
structure Trace (n : Nat) where
  arrived : List (Fin n)
  started : List (Fin n)

/-- `idestart()`, unless it panics. -/
def idestart (x : Sys β κ n × Trace n) (b : Fin n) : Option (Sys β κ n × Trace n) :=
  if (x.1.buf b).blockno < FSSIZE then
    some ({ x.1 with dev := .busy (x.1.buf b).cmd }, { x.2 with started := x.2.started ++ [b] })
  else none

/-- The walk over the list and `*pp = b`. -/
def append (s : Sys β κ n) (b : Fin n) : Option (Sys β κ n) :=
  match s.idequeue with
  | none => some { s with idequeue := some b }
  | some x => (last s.qnext n x).map fun l => { s with qnext := upd s.qnext l (some b) }

/-- `ideintr()`, with the data that the device has. -/
def ideintr (x : Sys β κ n × Trace n) (data : β) : Option (Sys β κ n × Trace n) :=
  match x.1.idequeue with
  | none => some x
  | some b =>
    let v := x.1.buf b
    let s : Sys β κ n := { x.1 with
      idequeue := x.1.qnext b
      buf := upd x.1.buf b { v with
        data := if v.dirty then v.data else data
        valid := true
        dirty := false }
      dev := .idle }
    match s.idequeue with
    | none => some (s, x.2)
    | some b' => idestart (s, x.2) b'

inductive Event (β κ : Type) (n : Nat) where
  | call (k : κ) (b : Fin n)
  /-- The device ends its command. -/
  | finish
  | intr
  /-- Process `k` finds its buffer done and returns. -/
  | ret (k : κ)
  /-- A buffer that no process has in `iderw()` becomes `v`. -/
  | use (b : Fin n) (v : Buf β)

section

variable [DecidableEq κ] [Fintype κ]

/-- No process is in `iderw()` with a buffer of this block. -/
def Alone (s : Sys β κ n) (b : Fin n) : Prop :=
  ∀ k, ∀ r ∈ s.req k, r.buf ≠ b ∧ (s.buf r.buf).addr ≠ (s.buf b).addr

instance (s : Sys β κ n) (b : Fin n) : Decidable (Alone s b) :=
  inferInstanceAs (Decidable (∀ k, ∀ r ∈ s.req k, _ ∧ _))

/-- `iderw()` up to its loop. There is nothing to do, or disk 1 is not there: it panics. -/
def iderw (x : Sys β κ n × Trace n) (k : κ) (b : Fin n) : Option (Sys β κ n × Trace n) :=
  let v := x.1.buf b
  if v.Clean ∨ v.dev ≠ 0 ∧ x.1.havedisk1 = false then none
  else
    let s : Sys β κ n := { x.1 with
      qnext := upd x.1.qnext b none
      req := upd x.1.req k (some ⟨b, v.dirty, v.data⟩) }
    (append s b).bind fun s =>
      let y := (s, { x.2 with arrived := x.2.arrived ++ [b] })
      if s.idequeue = some b then idestart y b else some y

def step (x : Sys β κ n × Trace n) : Event β κ n → Option (Sys β κ n × Trace n)
  | .call k b => if x.1.req k = none ∧ Alone x.1 b then iderw x k b else none
  | .finish =>
    match x.1.dev with
    | .busy ⟨addr, some data⟩ =>
      some ({ x.1 with disk := upd x.1.disk addr data, dev := .done ⟨addr, some data⟩ data }, x.2)
    | .busy ⟨addr, none⟩ => some ({ x.1 with dev := .done ⟨addr, none⟩ (x.1.disk addr) }, x.2)
    | _ => none
  | .intr =>
    match x.1.dev with
    | .done _ data => ideintr x data
    | _ => none
  | .ret k =>
    match x.1.req k with
    | none => none
    | some r => if (x.1.buf r.buf).Clean then some ({ x.1 with req := upd x.1.req k none }, x.2) else none
  | .use b v =>
    if ∃ k, ∃ r ∈ x.1.req k, r.buf = b then none
    else some ({ x.1 with buf := upd x.1.buf b v }, x.2)

/-- The state after `ideinit()`. -/
def ideinit (buf : Fin n → Buf β) (disk : Nat × Nat → β) (havedisk1 : Bool) : Sys β κ n × Trace n :=
  (⟨buf, fun _ => none, none, .idle, disk, fun _ => none, havedisk1⟩, ⟨[], []⟩)

end

/-! ## The invariant -/

/-- The device has the command of the first buffer, or nothing to do. -/
def Serving (s : Sys β κ n) : List (Fin n) → Prop
  | [] => s.dev = .idle
  | b :: _ => s.dev = .busy (s.buf b).cmd ∨
      ∃ data, s.dev = .done (s.buf b).cmd data ∧ s.disk (s.buf b).addr = data ∧
        ((s.buf b).dirty = true → data = (s.buf b).data)

structure Inv (x : Sys β κ n × Trace n) (q : List (Fin n)) : Prop where
  linked : Linked x.1.qnext x.1.idequeue q
  nodup : q.Nodup
  queue : ∀ b, b ∈ q ↔ ∃ k, ∃ r ∈ x.1.req k, r.buf = b ∧ ¬ (x.1.buf b).Clean
  device : Serving x.1 q
  distinct : ∀ j k, ∀ a ∈ x.1.req j, ∀ b ∈ x.1.req k,
    a.buf = b.buf ∨ (x.1.buf a.buf).addr = (x.1.buf b.buf).addr → j = k
  waiting : ∀ k, ∀ r ∈ x.1.req k, ¬ (x.1.buf r.buf).Clean →
    (x.1.buf r.buf).dirty = r.write ∧ (x.1.buf r.buf).data = r.data
  finished : ∀ k, ∀ r ∈ x.1.req k, (x.1.buf r.buf).Clean →
    x.1.disk (x.1.buf r.buf).addr = (x.1.buf r.buf).data ∧
    (r.write = true → (x.1.buf r.buf).data = r.data)
  order : ∃ served, x.2.arrived = served ++ q ∧ x.2.started = served ++ q.take 1

variable {x y : Sys β κ n × Trace n} {q : List (Fin n)} {b : Fin n} {k : κ}

theorem inv_init (buf : Fin n → Buf β) (disk : Nat × Nat → β) (havedisk1 : Bool) :
    Inv (ideinit buf disk havedisk1 : Sys β κ n × Trace n) [] where
  linked := rfl
  nodup := List.nodup_nil
  queue := by simp [ideinit]
  device := rfl
  distinct := by simp [ideinit]
  waiting := by simp [ideinit]
  finished := by simp [ideinit]
  order := ⟨[], rfl, rfl⟩

theorem Inv.req_of_mem (h : Inv x q) (hb : b ∈ q) :
    ∃ k, ∃ r ∈ x.1.req k, r.buf = b ∧ ¬ (x.1.buf b).Clean := (h.queue b).mp hb

theorem Inv.use (h : Inv x q) (hb : ¬ ∃ k, ∃ r ∈ x.1.req k, r.buf = b) (v : Buf β) :
    Inv ({ x.1 with buf := upd x.1.buf b v }, x.2) q := by
  have hsame : ∀ k, ∀ r ∈ x.1.req k, upd x.1.buf b v r.buf = x.1.buf r.buf := by
    intro k r hr
    exact upd_ne _ _ fun he => hb ⟨k, r, hr, he⟩
  have hq : ∀ c ∈ q, upd x.1.buf b v c = x.1.buf c := by
    intro c hc
    obtain ⟨k, r, hr, rfl, -⟩ := h.req_of_mem hc
    exact hsame k r hr
  refine ⟨h.linked, h.nodup, fun c => ?_, ?_, ?_, ?_, ?_, h.order⟩
  · rw [h.queue]
    constructor
    · rintro ⟨k, r, hr, rfl, hc⟩
      refine ⟨k, r, hr, rfl, ?_⟩
      dsimp only
      rw [hsame k r hr]
      exact hc
    · rintro ⟨k, r, hr, rfl, hc⟩
      refine ⟨k, r, hr, rfl, ?_⟩
      dsimp only at hc
      rwa [hsame k r hr] at hc
  · cases q with
    | nil => exact h.device
    | cons c l =>
      have hc := hq c (List.mem_cons_self ..)
      simp only [Serving, hc]
      exact h.device
  · intro i j a ha c hc he
    dsimp only at he
    rw [hsame i a ha, hsame j c hc] at he
    exact h.distinct i j a ha c hc he
  · intro k r hr
    dsimp only
    rw [hsame k r hr]
    exact h.waiting k r hr
  · intro k r hr
    dsimp only
    rw [hsame k r hr]
    exact h.finished k r hr

theorem Inv.ret [DecidableEq κ] (h : Inv x q) {r : Req β n} (hr : x.1.req k = some r) (hc : (x.1.buf r.buf).Clean) :
    Inv ({ x.1 with req := upd x.1.req k none }, x.2) q := by
  have hold : ∀ j, ∀ a ∈ upd x.1.req k none j, a ∈ x.1.req j := by
    intro j a ha
    rw [upd_apply] at ha
    split at ha
    · cases ha
    · exact ha
  refine ⟨h.linked, h.nodup, fun c => ?_, ?_, ?_, ?_, ?_, h.order⟩
  · rw [h.queue]
    constructor
    · rintro ⟨j, a, ha, rfl, hne⟩
      refine ⟨j, a, ?_, rfl, hne⟩
      have hj : j ≠ k := by
        rintro rfl
        rw [Option.mem_def, hr, Option.some.injEq] at ha
        exact hne (ha ▸ hc)
      dsimp only
      rw [upd_ne _ _ hj]
      exact ha
    · rintro ⟨j, a, ha, he⟩
      exact ⟨j, a, hold j a ha, he⟩
  · cases q with
    | nil => exact h.device
    | cons c l => exact h.device
  · exact fun i j a ha c hc he => h.distinct i j a (hold i a ha) c (hold j c hc) he
  · exact fun j a ha => h.waiting j a (hold j a ha)
  · exact fun j a ha => h.finished j a (hold j a ha)

theorem Inv.addr_ne (h : Inv x q) (hb : b ∈ q) {r : Req β n} (hr : r ∈ x.1.req k)
    (hc : (x.1.buf r.buf).Clean) : (x.1.buf r.buf).addr ≠ (x.1.buf b).addr := by
  obtain ⟨j, a, ha, rfl, hne⟩ := h.req_of_mem hb
  intro he
  have hkj := h.distinct k j r hr a ha (.inr he)
  subst hkj
  rw [Option.mem_def] at hr ha
  rw [hr, Option.some.injEq] at ha
  exact hne (ha ▸ hc)

theorem Inv.finish [DecidableEq κ] [Fintype κ] (h : Inv x q) (hstep : step x .finish = some y) : Inv y q := by
  cases q with
  | nil =>
    have hidle : x.1.dev = .idle := h.device
    simp only [step, hidle] at hstep
    cases hstep
  | cons b l =>
    have hb : b ∈ b :: l := List.mem_cons_self ..
    rcases h.device with hbusy | ⟨data, hdone, -⟩
    · have hdev := hbusy
      rw [Buf.cmd] at hdev
      cases hdirty : (x.1.buf b).dirty with
      | true =>
        rw [hdirty, if_pos rfl] at hdev
        simp only [step, hdev] at hstep
        cases hstep
        refine ⟨h.linked, h.nodup, h.queue, .inr ⟨(x.1.buf b).data, ?_, upd_same .., fun _ => rfl⟩,
          h.distinct, h.waiting, fun k r hr hc => ?_, h.order⟩
        · dsimp only
          rw [Buf.cmd, hdirty]
          rfl
        · dsimp only
          rw [upd_ne _ _ (h.addr_ne hb hr hc)]
          exact h.finished k r hr hc
      | false =>
        rw [hdirty] at hdev
        simp only [step, hdev] at hstep
        cases hstep
        refine ⟨h.linked, h.nodup, h.queue, .inr ⟨x.1.disk (x.1.buf b).addr, ?_, rfl, ?_⟩,
          h.distinct, h.waiting, h.finished, h.order⟩
        · dsimp only
          rw [Buf.cmd, hdirty]
          rfl
        · dsimp only
          rw [hdirty]
          rintro ⟨⟩
    · simp only [step, hdone] at hstep
      cases hstep

/-- The state after the interrupt handler has taken the first buffer off the queue. -/
def popped (s : Sys β κ n) (b : Fin n) (data : β) : Sys β κ n :=
  { s with
    idequeue := s.qnext b
    buf := upd s.buf b { s.buf b with
      data := if (s.buf b).dirty then (s.buf b).data else data
      valid := true
      dirty := false }
    dev := .idle }

theorem Inv.pop {l : List (Fin n)} {data : β} (h : Inv x (b :: l))
    (hdev : x.1.dev = .done (x.1.buf b).cmd data) {dev : Dev β} {tr : Trace n}
    (hserving : Serving { popped x.1 b data with dev := dev } l)
    (horder : ∃ served, tr.arrived = served ++ l ∧ tr.started = served ++ l.take 1) :
    Inv ({ popped x.1 b data with dev := dev }, tr) l := by
  obtain ⟨hbl, hnodup⟩ := List.nodup_cons.mp h.nodup
  have hne : ∀ c, c ≠ b → (popped x.1 b data).buf c = x.1.buf c := fun c hc => upd_ne _ _ hc
  have hb : (popped x.1 b data).buf b = { x.1.buf b with
      data := if (x.1.buf b).dirty then (x.1.buf b).data else data
      valid := true
      dirty := false } := upd_same ..
  have haddr : ∀ c, ((popped x.1 b data).buf c).addr = (x.1.buf c).addr := by
    intro c
    by_cases hc : c = b
    · rw [hc, hb]
      rfl
    · rw [hne c hc]
  have hclean : ((popped x.1 b data).buf b).Clean := by
    rw [hb]
    exact ⟨rfl, rfl⟩
  have hdisk : x.1.disk (x.1.buf b).addr = data ∧ ((x.1.buf b).dirty = true → data = (x.1.buf b).data) := by
    rcases h.device with hbusy | ⟨data', hdone, hrest⟩
    · rw [hbusy] at hdev
      cases hdev
    · rw [hdone] at hdev
      cases hdev
      exact hrest
  refine ⟨h.linked.2, hnodup, fun c => ?_, hserving, ?_, ?_, ?_, horder⟩
  · by_cases hc : c = b
    · rw [hc]
      refine iff_of_false hbl ?_
      rintro ⟨k, r, -, -, hno⟩
      exact hno hclean
    · have hq := h.queue c
      rw [List.mem_cons, or_iff_right hc] at hq
      rw [hq]
      dsimp only
      rw [hne c hc]
      rfl
  · intro i j a ha c hc he
    dsimp only at he
    rw [haddr, haddr] at he
    exact h.distinct i j a ha c hc he
  · intro k r hr hno
    have hrb : r.buf ≠ b := fun he => hno (he ▸ hclean)
    dsimp only at hno ⊢
    rw [hne _ hrb] at hno ⊢
    exact h.waiting k r hr hno
  · intro k r hr hc
    by_cases hrb : r.buf = b
    · -- the call of this buffer: it was in the queue until now
      obtain ⟨-, -, -, -, hno⟩ := h.req_of_mem (List.mem_cons_self ..)
      obtain ⟨hdirty, hdata⟩ := h.waiting k r hr (by rw [hrb]; exact hno)
      rw [hrb] at hdirty hdata
      dsimp only
      rw [haddr, hrb, hb]
      refine ⟨?_, fun hw => ?_⟩
      · change x.1.disk (x.1.buf b).addr = if (x.1.buf b).dirty then (x.1.buf b).data else data
        rw [hdisk.1]
        split
        · next hd => exact hdisk.2 hd
        · rfl
      · change (if (x.1.buf b).dirty then (x.1.buf b).data else data) = r.data
        rw [hdirty, hw, if_pos rfl]
        exact hdata
    · dsimp only at hc ⊢
      rw [haddr]
      rw [hne _ hrb] at hc ⊢
      exact h.finished k r hr hc

theorem Inv.intr {c : Cmd β} {data : β} (h : Inv x q) (hdev : x.1.dev = .done c data)
    (hstep : ideintr x data = some y) : ∃ q', Inv y q' := by
  cases q with
  | nil =>
    have hidle : x.1.dev = .idle := h.device
    rw [hidle] at hdev
    cases hdev
  | cons b l =>
    have hhead : x.1.idequeue = some b := h.linked.1
    have hcmd : x.1.dev = .done (x.1.buf b).cmd data := by
      rcases h.device with hbusy | ⟨data', hdone, -⟩
      · rw [hbusy] at hdev
        cases hdev
      · rw [hdone] at hdev ⊢
        cases hdev
        rfl
    obtain ⟨served, harrived, hstarted⟩ := h.order
    have harrived' : x.2.arrived = (served ++ [b]) ++ l := by rw [harrived]; simp
    have hstarted' : x.2.started = served ++ [b] := hstarted
    have hstep' : (match x.1.qnext b with
        | none => some (popped x.1 b data, x.2)
        | some b' => idestart (popped x.1 b data, x.2) b') = some y := by
      simp only [ideintr, hhead] at hstep
      exact hstep
    have hlink := h.linked.2
    cases l with
    | nil =>
      rw [show x.1.qnext b = none from hlink] at hstep'
      cases hstep'
      refine ⟨[], h.pop hcmd rfl ⟨served ++ [b], harrived', ?_⟩⟩
      rw [hstarted']
      simp
    | cons b' l =>
      rw [hlink.1] at hstep'
      obtain ⟨-, ⟨⟩⟩ := Option.ite_none_right_eq_some.mp hstep'
      refine ⟨b' :: l, h.pop hcmd (.inl rfl) ⟨served ++ [b], harrived', ?_⟩⟩
      dsimp only
      rw [hstarted']
      rfl

/-! ## A call -/

theorem mem_req {s : Sys β κ n} [DecidableEq κ] {r₀ r : Req β n} {j k : κ} :
    r ∈ upd s.req k (some r₀) j ↔ j = k ∧ r = r₀ ∨ j ≠ k ∧ r ∈ s.req j := by
  rw [upd_apply]
  by_cases hj : j = k
  · simp [hj, eq_comm]
  · simp [hj]

theorem Inv.push [DecidableEq κ] (h : Inv x q) (hfree : x.1.req k = none) (halone : Alone x.1 b)
    (hno : ¬ (x.1.buf b).Clean) {qnext : Fin n → Option (Fin n)} {idequeue : Option (Fin n)}
    {dev : Dev β} {tr : Trace n} (hlinked : Linked qnext idequeue (q ++ [b]))
    (hserving : Serving { x.1 with dev := dev } (q ++ [b]))
    (horder : ∃ served, tr.arrived = served ++ (q ++ [b]) ∧ tr.started = served ++ (q ++ [b]).take 1) :
    Inv ({ x.1 with
      qnext := qnext
      idequeue := idequeue
      dev := dev
      req := upd x.1.req k (some ⟨b, (x.1.buf b).dirty, (x.1.buf b).data⟩) }, tr) (q ++ [b]) := by
  have hbq : b ∉ q := by
    intro hb
    obtain ⟨j, r, hr, he, -⟩ := h.req_of_mem hb
    exact (halone j r hr).1 he
  refine ⟨hlinked, ?_, fun c => ?_, ?_, ?_, ?_, ?_, horder⟩
  · exact List.nodup_append.mpr ⟨h.nodup, List.nodup_singleton b, fun c hc d hd he =>
      hbq (by rw [← List.mem_singleton.mp hd, ← he]; exact hc)⟩
  · rw [List.mem_append, List.mem_singleton, h.queue]
    constructor
    · rintro (⟨j, r, hr, he⟩ | rfl)
      · refine ⟨j, r, mem_req.mpr (.inr ⟨?_, hr⟩), he⟩
        rintro rfl
        rw [hfree] at hr
        cases hr
      · exact ⟨k, _, mem_req.mpr (.inl ⟨rfl, rfl⟩), rfl, hno⟩
    · rintro ⟨j, r, hr, rfl, hc⟩
      rcases mem_req.mp hr with ⟨-, rfl⟩ | ⟨-, hr⟩
      · exact .inr rfl
      · exact .inl ⟨j, r, hr, rfl, hc⟩
  · cases hq : q ++ [b] with
    | nil => simp at hq
    | cons c l =>
      rw [hq] at hserving
      exact hserving
  · intro i j a ha c hc he
    rcases mem_req.mp ha with ⟨rfl, rfl⟩ | ⟨-, ha'⟩
    · rcases mem_req.mp hc with ⟨rfl, -⟩ | ⟨-, hc⟩
      · rfl
      · rcases he with he | he
        · exact absurd he.symm (halone j c hc).1
        · exact absurd he.symm (halone j c hc).2
    · rcases mem_req.mp hc with ⟨rfl, rfl⟩ | ⟨-, hc⟩
      · rcases he with he | he
        · exact absurd he (halone i a ha').1
        · exact absurd he (halone i a ha').2
      · exact h.distinct i j a ha' c hc he
  · intro j r hr hc
    rcases mem_req.mp hr with ⟨-, rfl⟩ | ⟨-, hr⟩
    · exact ⟨rfl, rfl⟩
    · exact h.waiting j r hr hc
  · intro j r hr hc
    rcases mem_req.mp hr with ⟨-, rfl⟩ | ⟨-, hr⟩
    · exact absurd hc hno
    · exact h.finished j r hr hc

theorem Inv.call [DecidableEq κ] (h : Inv x q) (hfree : x.1.req k = none) (halone : Alone x.1 b)
    (hstep : iderw x k b = some y) : ∃ q', Inv y q' := by
  rw [iderw] at hstep
  dsimp only at hstep
  split at hstep
  · cases hstep
  · next hgo =>
      have hno : ¬ (x.1.buf b).Clean := fun hc => hgo (.inl hc)
      have hbq : b ∉ q := by
        intro hb
        obtain ⟨j, r, hr, he, -⟩ := h.req_of_mem hb
        exact (halone j r hr).1 he
      have hlinked : Linked (upd x.1.qnext b none) x.1.idequeue q :=
        h.linked.congr fun c hc => upd_ne _ _ fun he => hbq (he ▸ hc)
      obtain ⟨served, harrived, hstarted⟩ := h.order
      refine ⟨q ++ [b], ?_⟩
      cases q with
      | nil =>
        have hempty : x.1.idequeue = none := h.linked
        simp only [append, hempty, Option.bind_some, if_true] at hstep
        obtain ⟨-, ⟨⟩⟩ := Option.ite_none_right_eq_some.mp hstep
        refine h.push hfree halone hno ⟨rfl, upd_same ..⟩ (.inl rfl) ⟨served, ?_, ?_⟩
        · dsimp only
          rw [harrived]
          simp
        · dsimp only
          rw [hstarted]
          simp
      | cons c l =>
        have hhead : x.1.idequeue = some c := h.linked.1
        have hlen : l.length < n := by
          have hcard := h.nodup.length_le_card
          rw [Fintype.card_fin] at hcard
          exact hcard
        rw [hhead] at hlinked
        have hlast := hlinked.last_eq hlen
        have hcb : c ≠ b := fun he => hbq (he ▸ List.mem_cons_self ..)
        have hcb' : (some c : Option (Fin n)) ≠ some b := fun he => hcb (Option.some.inj he)
        simp only [append, hhead, hlast, Option.map_some, Option.bind_some, if_neg hcb'] at hstep
        cases hstep
        refine h.push hfree halone hno ?_ h.device ⟨served, ?_, hstarted⟩
        · exact hlinked.concat h.nodup hbq (upd_same ..)
        · dsimp only
          rw [harrived, List.append_assoc]

/-! ## Runs -/

variable [DecidableEq κ] [Fintype κ]

theorem inv_step {e : Event β κ n} (hstep : step x e = some y) (h : ∃ q, Inv x q) : ∃ q, Inv y q := by
  obtain ⟨q, h⟩ := h
  cases e with
  | call k b =>
    obtain ⟨hgo, hstep⟩ := Option.ite_none_right_eq_some.mp hstep
    exact h.call hgo.1 hgo.2 hstep
  | finish => exact ⟨q, h.finish hstep⟩
  | intr =>
    rw [step] at hstep
    split at hstep
    · next hdev => exact h.intr hdev hstep
    · cases hstep
  | ret k =>
    rw [step] at hstep
    split at hstep
    · cases hstep
    · next hr =>
        obtain ⟨hc, ⟨⟩⟩ := Option.ite_none_right_eq_some.mp hstep
        exact ⟨q, h.ret hr hc⟩
  | use b v =>
    rw [step] at hstep
    split at hstep
    · cases hstep
    · next hb =>
        cases hstep
        exact ⟨q, h.use hb v⟩

/-- What holds of the queue `q`. -/
structure Served (x : Sys β κ n × Trace n) (q : List (Fin n)) : Prop where
  linked : Linked x.1.qnext x.1.idequeue q
  nodup : q.Nodup
  queue : ∀ b, b ∈ q ↔ ∃ k, ∃ r ∈ x.1.req k, r.buf = b ∧ ¬ (x.1.buf b).Clean
  device : Serving x.1 q
  /-- Commands are started in the order of the calls, each once: those of the calls that are
  done and of the first buffer of the queue. -/
  order : ∃ served, x.2.arrived = served ++ q ∧ x.2.started = served ++ q.take 1
  /-- A call that returns leaves the data of the disk in the buffer, which for a write are those
  the buffer had. -/
  returns : ∀ k y, step x (.ret k) = some y → ∃ r ∈ x.1.req k, (y.1.buf r.buf).Clean ∧
    y.1.disk (y.1.buf r.buf).addr = (y.1.buf r.buf).data ∧
    (r.write = true → (y.1.buf r.buf).data = r.data)

/-- **The disk queue.**  In every run of calls and interrupts the queue has the buffers of the
calls that wait, each once, the device executes the command of the first one, commands are
started once each in the order of the calls, and a call returns with the buffer and the block
of the disk in agreement. -/
theorem disk_queue {buf : Fin n → Buf β} {disk : Nat × Nat → β} {havedisk1 : Bool}
    {es : List (Event β κ n)} (hrun : run step (ideinit buf disk havedisk1) es = some x) :
    ∃ q, Served x q := by
  obtain ⟨q, h⟩ := run_invariant (P := fun x => ∃ q, Inv x q) (fun _ _ _ => inv_step) hrun
    ⟨[], inv_init buf disk havedisk1⟩
  refine ⟨q, h.linked, h.nodup, h.queue, h.device, h.order, fun k y hstep => ?_⟩
  rw [step] at hstep
  split at hstep
  · cases hstep
  · next r hr =>
      obtain ⟨hc, ⟨⟩⟩ := Option.ite_none_right_eq_some.mp hstep
      exact ⟨r, hr, hc, h.finished k r hr hc⟩

/-- Two buffers, one to be read and one to be written. -/
def twoBufs : Fin 2 → Buf Nat := fun b =>
  if b.val = 0 then ⟨false, false, 0, 5, 0⟩ else ⟨true, true, 0, 6, 9⟩

/-- Both are requested, and the first one is served. -/
def readAndWrite : List (Event Nat (Fin 2) 2) :=
  [.call ⟨0, Nat.zero_lt_two⟩ ⟨0, Nat.zero_lt_two⟩, .call ⟨1, Nat.one_lt_two⟩ ⟨1, Nat.one_lt_two⟩,
    .finish, .intr, .ret ⟨0, Nat.zero_lt_two⟩, .finish]

theorem disk_queue_two : ∃ x, run step (ideinit twoBufs (fun _ => 7) false) readAndWrite = some x ∧
    x.2.started = [0, 1] ∧ (x.1.buf 0).data = 7 ∧ x.1.disk (0, 6) = 9 ∧ ∃ q, Served x q :=
  ⟨_, rfl, rfl, rfl, rfl, @disk_queue Nat (Fin 2) 2 _ _ _ twoBufs (fun _ => 7) false readAndWrite rfl⟩

end Xv6.Ide
