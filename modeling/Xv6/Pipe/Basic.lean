import Xv6.Lib.Fifo
import Xv6.Lib.Trans

/-!
# Pipes

The pipes of `pipe.c`, at the granularity of `p->lock`. A process that has entered
`piperead` or `pipewrite` holds the lock until it returns or goes to sleep, and what
it does meanwhile is one step. `piperead` and `pipewrite` below are one such turn,
from `acquire` or the return of `sleep` to `release` or the next `sleep`.

Any number of processes use the pipe, one of each name in `κ`. `kill` may come at any
time.
-/

namespace Xv6

open Table Fifo

abbrev PIPESIZE : Nat := 512

/-- `struct pipe`, without its lock. -/
structure Pipe where
  data : Nat → UInt8
  nread : UInt32
  /-- The number of bytes written. -/
  nwrite : UInt32
  readopen : Bool
  writeopen : Bool

namespace Pipe

/-- The pipe `pipealloc` sets up, on a page with the bytes `data`. -/
def alloc (data : Nat → UInt8) : Pipe where
  data := data
  nread := 0
  nwrite := 0
  readopen := true
  writeopen := true

/-- `p->nread == p->nwrite`. -/
def Empty (p : Pipe) : Prop := p.nread = p.nwrite

/-- `p->nwrite == p->nread + PIPESIZE`. -/
def Full (p : Pipe) : Prop := p.nwrite = p.nread + UInt32.ofNat PIPESIZE

instance (p : Pipe) : Decidable p.Empty := inferInstanceAs (Decidable (p.nread = p.nwrite))

instance (p : Pipe) : Decidable p.Full :=
  inferInstanceAs (Decidable (p.nwrite = p.nread + UInt32.ofNat PIPESIZE))

/-- `p->data[p->nwrite++ % PIPESIZE] = b`. -/
def store (p : Pipe) (b : UInt8) : Pipe :=
  { p with
    data := upd p.data (p.nwrite % UInt32.ofNat PIPESIZE).toNat b
    nwrite := p.nwrite + 1 }

/-- The oldest byte, `p->data[p->nread % PIPESIZE]`. -/
def front (p : Pipe) : UInt8 := p.data (p.nread % UInt32.ofNat PIPESIZE).toNat

/-- The rounds of `pipewrite`'s loop that find room, of at most the given number of rounds,
the first with index `i`. Returns the bytes stored. -/
def copyIn (addr : Nat → UInt8) : Nat → Nat → Pipe → List UInt8 × Pipe
  | 0, _, p => ([], p)
  | m + 1, i, p =>
    if p.Full then ([], p)
    else
      let rest := copyIn addr m (i + 1) (p.store (addr i))
      (addr i :: rest.1, rest.2)

/-- The loop of `piperead` that copies out at most the given number of bytes. -/
def copyOut : Nat → Pipe → List UInt8 × Pipe
  | 0, p => ([], p)
  | m + 1, p =>
    if p.Empty then ([], p)
    else
      let rest := copyOut m { p with nread := p.nread + 1 }
      (p.front :: rest.1, rest.2)

/-- The channels of a pipe, `&p->nread` and `&p->nwrite`. -/
inductive Chan
  | nread
  | nwrite
  deriving DecidableEq

/-- A call in progress, with its arguments. A write is at byte `i`. -/
inductive Call
  | read (n : Int)
  | write (addr : Nat → UInt8) (n : Int) (i : Nat)

/-- How a turn at the lock ends. -/
inductive Next
  | sleep (chan : Chan) (call : Call)
  | ret (value : Int)

/-- What a process does while it holds the lock. -/
structure Turn where
  pipe : Pipe
  stored : List UInt8
  /-- The bytes copied to the reader. -/
  copied : List UInt8
  /-- The channel `wakeup` is called on, if it is. -/
  wakes : Option Chan
  next : Next

def piperead (p : Pipe) (killed : Bool) (n : Int) : Turn :=
  if p.Empty ∧ p.writeopen then
    if killed then ⟨p, [], [], none, .ret (-1)⟩
    else ⟨p, [], [], none, .sleep .nread (.read n)⟩
  else
    let out := p.copyOut n.toNat
    ⟨out.2, [], out.1, some .nwrite, .ret out.1.length⟩

def pipewrite (p : Pipe) (killed : Bool) (addr : Nat → UInt8) (n : Int) (i : Nat) : Turn :=
  let ins := p.copyIn addr (n.toNat - i) i
  let i' := i + ins.1.length
  if i' < n then
    -- the loop stopped at byte `i'` because the pipe is full
    if ins.2.readopen = false ∨ killed then ⟨ins.2, ins.1, [], none, .ret (-1)⟩
    else ⟨ins.2, ins.1, [], some .nread, .sleep .nwrite (.write addr n i')⟩
  else ⟨ins.2, ins.1, [], some .nread, .ret n⟩

def Call.turn (p : Pipe) (killed : Bool) : Call → Turn
  | .read n => p.piperead killed n
  | .write addr n i => p.pipewrite killed addr n i

/-! ## The processes at a pipe -/

structure Proc where
  killed : Bool
  /-- The channel the process sleeps on. -/
  chan : Option Chan
  call : Option Call

structure Sys (κ : Type) where
  pipe : Pipe
  /-- The page of the pipe was freed. -/
  freed : Bool
  proc : κ → Proc

inductive Event (κ : Type)
  | read (k : κ) (n : Int)
  | write (k : κ) (addr : Nat → UInt8) (n : Int)
  /-- A process woken up in the middle of a call acquires the lock again. -/
  | resume (k : κ)
  | close (writable : Bool)
  | kill (k : κ)

variable {κ : Type}

/-- A fresh pipe, before any of the processes has called it. -/
def boot (data : Nat → UInt8) : Sys κ where
  pipe := alloc data
  freed := false
  proc := fun _ => ⟨false, none, none⟩

def wakeup (proc : κ → Proc) (c : Chan) : κ → Proc := fun k =>
  if (proc k).chan = some c then { proc k with chan := none } else proc k

def wakeup? (proc : κ → Proc) : Option Chan → κ → Proc
  | none => proc
  | some c => wakeup proc c

@[simp] theorem wakeup?_call (proc : κ → Proc) (o : Option Chan) (k : κ) :
    (wakeup? proc o k).call = (proc k).call := by
  cases o with
  | none => rfl
  | some c =>
    simp only [wakeup?, wakeup]
    split
    · rfl
    · rfl

theorem wakeup_chan {proc : κ → Proc} {c d : Chan} {k : κ} (h : (wakeup proc c k).chan = some d) :
    (proc k).chan = some d ∧ d ≠ c := by
  unfold wakeup at h
  split at h
  · cases h
  · rename_i hne
    exact ⟨h, fun hd => hne (hd ▸ h)⟩

theorem wakeup?_chan {proc : κ → Proc} {o : Option Chan} {d : Chan} {k : κ}
    (h : (wakeup? proc o k).chan = some d) : (proc k).chan = some d ∧ o ≠ some d := by
  cases o with
  | none => exact ⟨h, by rintro ⟨⟩⟩
  | some c =>
    obtain ⟨hd, hne⟩ := wakeup_chan h
    exact ⟨hd, fun he => hne (Option.some.inj he).symm⟩

def Next.apply (pr : Proc) : Next → Proc
  | .sleep chan call => { pr with chan := some chan, call := some call }
  | .ret _ => { pr with chan := none, call := none }

variable [DecidableEq κ]

/-- The effect of a turn of process `k`. -/
def Sys.apply (s : Sys κ) (k : κ) (t : Turn) : Sys κ :=
  { s with
    pipe := t.pipe
    proc := upd (wakeup? s.proc t.wakes) k (t.next.apply (s.proc k)) }

/-- The end that `pipeclose` is to close is open. -/
def endOpen (p : Pipe) (writable : Bool) : Bool := if writable then p.writeopen else p.readopen

def pipeclose (s : Sys κ) (writable : Bool) : Sys κ :=
  let p : Pipe := if writable then { s.pipe with writeopen := false }
    else { s.pipe with readopen := false }
  { pipe := p
    freed := p.readopen = false ∧ p.writeopen = false
    proc := wakeup s.proc (if writable then .nread else .nwrite) }

def kill (s : Sys κ) (k : κ) : Sys κ :=
  { s with proc := upd s.proc k { s.proc k with killed := true, chan := none } }

/-- The process and the call that get the lock with an event. -/
def Sys.runs (s : Sys κ) : Event κ → Option (κ × Call)
  | .read k n => if (s.proc k).call.isNone then some (k, .read n) else none
  | .write k addr n => if (s.proc k).call.isNone then some (k, .write addr n 0) else none
  | .resume k => if (s.proc k).chan.isNone then (s.proc k).call.map fun c => (k, c) else none
  | .close _ => none
  | .kill _ => none

def Sys.turn (s : Sys κ) (k : κ) (c : Call) : Turn := c.turn s.pipe (s.proc k).killed

def step (s : Sys κ) (e : Event κ) : Option (Sys κ) :=
  if s.freed then none
  else match e with
    | .close writable =>
      if s.pipe.endOpen writable then some (pipeclose s writable) else none
    | .kill k => some (kill s k)
    | e => (s.runs e).map fun x => s.apply x.1 (s.turn x.1 x.2)

/-- The ways to get the lock. -/
inductive Runs (s : Sys κ) : Event κ → κ → Call → Prop
  | read {k : κ} {n : Int} (hcall : (s.proc k).call = none) : Runs s (.read k n) k (.read n)
  | write {k : κ} {addr : Nat → UInt8} {n : Int} (hcall : (s.proc k).call = none) :
      Runs s (.write k addr n) k (.write addr n 0)
  | resume {k : κ} {c : Call} (hchan : (s.proc k).chan = none) (hcall : (s.proc k).call = some c) :
      Runs s (.resume k) k c

omit [DecidableEq κ] in
theorem runs_cases {s : Sys κ} {e : Event κ} {k : κ} {c : Call} (h : s.runs e = some (k, c)) :
    Runs s e k c := by
  cases e with
  | read k' n =>
    obtain ⟨hcall, he⟩ := Option.ite_none_right_eq_some.mp h
    cases he
    exact .read (Option.isNone_iff_eq_none.mp hcall)
  | write k' addr n =>
    obtain ⟨hcall, he⟩ := Option.ite_none_right_eq_some.mp h
    cases he
    exact .write (Option.isNone_iff_eq_none.mp hcall)
  | resume k' =>
    obtain ⟨hchan, he⟩ := Option.ite_none_right_eq_some.mp h
    obtain ⟨c', hcall, hc⟩ := Option.map_eq_some_iff.mp he
    cases hc
    exact .resume (Option.isNone_iff_eq_none.mp hchan) hcall
  | close w => cases h
  | kill k' => cases h

inductive Step (s : Sys κ) : Event κ → Sys κ → Prop
  | close {writable : Bool} (hopen : s.pipe.endOpen writable = true) :
      Step s (.close writable) (pipeclose s writable)
  | kill {k : κ} : Step s (.kill k) (kill s k)
  | turn {e : Event κ} {k : κ} {c : Call} (hruns : s.runs e = some (k, c)) :
      Step s e (s.apply k (s.turn k c))

theorem step_cases {s t : Sys κ} {e : Event κ} (h : step s e = some t) : Step s e t := by
  unfold step at h
  split at h
  · cases h
  · cases e with
    | close writable =>
      dsimp only at h
      split at h
      · rename_i hopen
        cases h
        exact .close hopen
      · cases h
    | kill k =>
      cases h
      exact .kill
    | read k n =>
      obtain ⟨x, hx, rfl⟩ := Option.map_eq_some_iff.mp h
      exact .turn hx
    | write k addr n =>
      obtain ⟨x, hx, rfl⟩ := Option.map_eq_some_iff.mp h
      exact .turn hx
    | resume k =>
      obtain ⟨x, hx, rfl⟩ := Option.map_eq_some_iff.mp h
      exact .turn hx

/-! ## The two loops -/

theorem copyIn_open (addr : Nat → UInt8) :
    ∀ (m i : Nat) (p : Pipe), (p.copyIn addr m i).2.readopen = p.readopen ∧
      (p.copyIn addr m i).2.writeopen = p.writeopen ∧ (p.copyIn addr m i).2.nread = p.nread
  | 0, _, _ => ⟨rfl, rfl, rfl⟩
  | m + 1, i, p => by
    rw [copyIn]
    split
    · exact ⟨rfl, rfl, rfl⟩
    · exact copyIn_open addr m (i + 1) (p.store (addr i))

/-- The loop of `pipewrite` stores bytes of the buffer in order, and stops early only at a
full pipe. -/
theorem copyIn_bytes (addr : Nat → UInt8) : ∀ (m i : Nat) (p : Pipe), ∃ l, l ≤ m ∧
      (p.copyIn addr m i).1 = (List.range' i l).map addr ∧ (l < m → (p.copyIn addr m i).2.Full)
  | 0, _, _ => ⟨0, Nat.le_refl _, rfl, fun h => absurd h (Nat.lt_irrefl 0)⟩
  | m + 1, i, p => by
    rw [copyIn]
    split
    · rename_i hfull
      exact ⟨0, Nat.zero_le _, rfl, fun _ => hfull⟩
    · obtain ⟨l, hl, hbytes, hfull⟩ := copyIn_bytes addr m (i + 1) (p.store (addr i))
      refine ⟨l + 1, Nat.succ_le_succ hl, ?_, fun h => hfull (Nat.lt_of_succ_lt_succ h)⟩
      dsimp only
      rw [hbytes, List.range'_succ, List.map_cons]

theorem copyIn_full (addr : Nat → UInt8) {p : Pipe} (h : p.Full) : ∀ m i : Nat, p.copyIn addr m i = ([], p)
  | 0, _ => rfl
  | m + 1, i => by rw [copyIn, if_pos h]

/-! ## The bytes in a pipe -/

/-- The pipe holds the bytes of `put` that are not in `got`. -/
abbrev Holds (p : Pipe) (put got : List UInt8) : Prop :=
  Fifo.Holds PIPESIZE p.data p.nread p.nwrite put got

theorem pipesize_dvd : PIPESIZE ∣ 2 ^ 32 := ⟨2 ^ 23, rfl⟩

theorem pipesize_lt : PIPESIZE < 2 ^ 32 := by decide

theorem Holds.copyIn (addr : Nat → UInt8) :
    ∀ (m i : Nat) {p : Pipe} {put got : List UInt8}, Holds p put got →
      Holds (p.copyIn addr m i).2 (put ++ (p.copyIn addr m i).1) got
  | 0, _, p, put, got, h => by
    rw [Pipe.copyIn, List.append_nil]
    exact h
  | m + 1, i, p, put, got, h => by
    rw [Pipe.copyIn]
    split
    · rw [List.append_nil]
      exact h
    · rename_i hroom
      have hone : Holds (p.store (addr i)) (put ++ [addr i]) got :=
        h.put_one pipesize_dvd pipesize_lt hroom (addr i)
      have hrest := hone.copyIn addr m (i + 1)
      rw [List.append_assoc] at hrest
      exact hrest

theorem Holds.copyOut : ∀ (m : Nat) {p : Pipe} {put got : List UInt8}, Holds p put got →
      Holds (p.copyOut m).2 put (got ++ (p.copyOut m).1)
  | 0, p, put, got, h => by
    rw [Pipe.copyOut, List.append_nil]
    exact h
  | m + 1, p, put, got, h => by
    rw [Pipe.copyOut]
    split
    · rw [List.append_nil]
      exact h
    · rename_i hsome
      have hone : Holds { p with nread := p.nread + 1 } put (got ++ [p.front]) :=
        h.get_one pipesize_dvd pipesize_lt hsome
      have hrest := hone.copyOut m
      rw [List.append_assoc] at hrest
      exact hrest

theorem Holds.turn {p : Pipe} {put got : List UInt8} (h : Holds p put got) (killed : Bool) (c : Call) :
    Holds (c.turn p killed).pipe (put ++ (c.turn p killed).stored) (got ++ (c.turn p killed).copied) := by
  cases c with
  | read n =>
    simp only [Call.turn, piperead]
    split
    · split
      · simpa only [List.append_nil] using h
      · simpa only [List.append_nil] using h
    · simpa only [List.append_nil] using h.copyOut n.toNat
  | write addr n i =>
    have hin := h.copyIn addr (n.toNat - i) i
    simp only [Call.turn, pipewrite]
    split
    · split
      · simpa only [List.append_nil] using hin
      · simpa only [List.append_nil] using hin
    · simpa only [List.append_nil] using hin

end Pipe

end Xv6
