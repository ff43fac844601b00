import Xv6.Lib.Fifo
import Xv6.Lib.Trans
import Mathlib.Data.List.GetD
import Mathlib.Tactic.Common

/-!
# The line discipline of the console

`consoleintr()` and `consoleread()` of `console.c`: the ring buffer `input` with its three
free-running 32-bit indices. The interrupt handler appends at `e`, takes bytes back there,
and moves `w` up to `e` at the end of a line, at `^D` and when the buffer is full. Readers
take bytes at `r`, and put a `^D` back if they have some bytes to return first.

A step is one character of the handler or one round of a reader's loop. `cons.lock` is held
over several of them, so that the runs of the kernel are among those that are considered.
Any number of processes read at the same time.
-/

namespace Xv6.Console

open Table Trans Fifo

abbrev INPUT_BUF : Nat := 128

/-- `C(x)`. -/
def ctrl (c : Char) : UInt8 := UInt8.ofNat (c.toNat - '@'.toNat)

def newline : UInt8 := 10
def carriageReturn : UInt8 := 13
def delete : UInt8 := 0x7f

structure Input where
  buf : Nat → UInt8
  r : UInt32
  /-- Write index. -/
  w : UInt32
  /-- Edit index. -/
  e : UInt32

/-- The byte at an index. -/
def Input.get (s : Input) (i : UInt32) : UInt8 := s.buf (i % UInt32.ofNat INPUT_BUF).toNat

/-! ## The interrupt handler -/

/-- The loop of `^U`, for as many rounds as there are bytes to take back. -/
def killLine : Nat → Input → Input
  | 0, s => s
  | n + 1, s =>
    if s.e ≠ s.w ∧ s.get (s.e - 1) ≠ newline then killLine n { s with e := s.e - 1 } else s

/-- The default case: append the byte `c`. -/
def append (s : Input) (c : UInt8) : Input :=
  let s : Input := { s with
    buf := upd s.buf (s.e % UInt32.ofNat INPUT_BUF).toNat c
    e := s.e + 1 }
  if c = newline ∨ c = ctrl 'D' ∨ s.e = s.r + UInt32.ofNat INPUT_BUF then { s with w := s.e } else s

/-- What `consoleintr()` does with the character `c`. -/
def consoleintr (s : Input) (c : UInt8) : Input :=
  if c = ctrl 'P' then s
  else if c = ctrl 'U' then killLine (s.e - s.w).toNat s
  else if c = ctrl 'H' ∨ c = delete then (if s.e ≠ s.w then { s with e := s.e - 1 } else s)
  else if c ≠ 0 ∧ s.e - s.r < UInt32.ofNat INPUT_BUF then
    append s (if c = carriageReturn then newline else c)
  else s

/-! ## Readers -/

/-- A call of `consoleread()` in progress. -/
structure Call where
  target : Nat
  /-- `n`, the bytes that are still to be read. -/
  left : Nat
  /-- The number of the call. -/
  id : Nat

structure Sys (κ : Type) where
  input : Input
  call : κ → Option Call

structure Return where
  id : Nat
  target : Nat
  count : Nat

structure Trace where
  committed : List UInt8
  /-- The bytes that were consumed, each with the number of the call. -/
  taken : List (UInt8 × Nat)
  /-- The bytes that were stored at the `dst` of a reader. -/
  delivered : List UInt8
  returned : List Return
  calls : Nat

inductive Event (κ : Type) where
  | key (c : UInt8)
  /-- `consoleread(ip, dst, n)`. -/
  | read (k : κ) (n : Nat)
  /-- The next round of the loop of process `k`. -/
  | turn (k : κ)

variable {κ : Type} [DecidableEq κ]

/-- The character is handled, and the bytes that it commits are noted. -/
def key (x : Sys κ × Trace) (c : UInt8) : Sys κ × Trace :=
  let input := consoleintr x.1.input c
  let new := Fifo.window INPUT_BUF input.buf x.1.input.w (input.w - x.1.input.w).toNat
  ({ x.1 with input := input }, { x.2 with committed := x.2.committed ++ new })

/-- The call returns `target - n`. -/
def finish (x : Sys κ × Trace) (k : κ) (a : Call) : Sys κ × Trace :=
  ({ x.1 with call := upd x.1.call k none },
    { x.2 with returned := x.2.returned ++ [⟨a.id, a.target, a.target - a.left⟩] })

/-- The byte at `r` is consumed by the call. -/
def take (x : Sys κ × Trace) (a : Call) : Sys κ × Trace :=
  ({ x.1 with input := { x.1.input with r := x.1.input.r + 1 } },
    { x.2 with taken := x.2.taken ++ [(x.1.input.get x.1.input.r, a.id)] })

/-- The byte at `r` is stored at `dst`. -/
def store (x : Sys κ × Trace) (k : κ) (a : Call) : Sys κ × Trace :=
  ({ x.1 with call := upd x.1.call k (some { a with left := a.left - 1 }) },
    { x.2 with delivered := x.2.delivered ++ [x.1.input.get x.1.input.r] })

/-- One round of the loop of `consoleread()`. -/
def turn (x : Sys κ × Trace) (k : κ) (a : Call) : Sys κ × Trace :=
  if a.left = 0 then finish x k a
  else if x.1.input.r = x.1.input.w then x -- it sleeps, or goes back to sleep
  else if x.1.input.get x.1.input.r = ctrl 'D' then
    -- `input.r--` saves `^D` for the next read
    if a.left < a.target then finish x k a else finish (take x a) k a
  else
    let y := take (store x k a) a
    if x.1.input.get x.1.input.r = newline then finish y k { a with left := a.left - 1 } else y

def step (x : Sys κ × Trace) : Event κ → Option (Sys κ × Trace)
  | .key c => some (key x c)
  | .read k n =>
    match x.1.call k with
    | some _ => none
    | none => some ({ x.1 with call := upd x.1.call k (some ⟨n, n, x.2.calls⟩) },
        { x.2 with calls := x.2.calls + 1 })
  | .turn k => (x.1.call k).map (turn x k)

/-- The console after `consoleinit()`. -/
def boot : Sys κ × Trace := (⟨⟨fun _ => 0, 0, 0, 0⟩, fun _ => none⟩, ⟨[], [], [], [], 0⟩)

/-! ## The buffer -/

theorem cap_dvd : INPUT_BUF ∣ 2 ^ 32 := by decide

theorem cap_lt : INPUT_BUF < 2 ^ 32 := by decide

/-- The buffer holds the bytes that were committed and not consumed and those of the line that
is being edited. -/
structure Holding (s : Input) (committed passed line : List UInt8) : Prop where
  holds : Holds INPUT_BUF s.buf s.r s.e (committed ++ line) passed
  passed : passed <+: committed
  written : s.w = UInt32.ofNat committed.length

variable {s : Input} {committed passed line : List UInt8}

namespace Holding

section

variable (h : Holding s committed passed line)

include h

theorem sub_w :
    (s.w - s.r).toNat = committed.length - passed.length := by
  have hle := h.passed.length_le
  have hroom := h.holds.room
  rw [List.length_append] at hroom
  rw [h.written, h.holds.read, UInt32.toNat_sub, UInt32.toNat_ofNat', UInt32.toNat_ofNat']
  simp only [INPUT_BUF] at hroom
  omega

theorem sub_e :
    (s.e - s.r).toNat = committed.length + line.length - passed.length := by
  rw [h.holds.sub_toNat cap_lt, List.length_append]

theorem e_sub_w : (s.e - s.w).toNat = line.length := by
  have hle := h.passed.length_le
  have hroom := h.holds.room
  rw [List.length_append] at hroom
  rw [h.written, h.holds.written, UInt32.toNat_sub, UInt32.toNat_ofNat', UInt32.toNat_ofNat',
    List.length_append]
  simp only [INPUT_BUF] at hroom
  omega

theorem e_eq_w : s.e = s.w ↔ line = [] := by
  rw [← List.length_eq_zero_iff, ← h.e_sub_w]
  constructor
  · intro he
    rw [he, UInt32.sub_self]
    rfl
  · intro he
    have hz : s.e - s.w = 0 := UInt32.toNat_inj.mp he
    rw [← UInt32.sub_add_cancel s.e s.w, hz, UInt32.zero_add]

theorem r_eq_w : s.r = s.w ↔ passed = committed := by
  constructor
  · intro he
    have hsub := h.sub_w
    rw [he, UInt32.sub_self, UInt32.toNat_zero] at hsub
    exact h.passed.eq_of_length (by have := h.passed.length_le; omega)
  · rintro rfl
    rw [h.written, h.holds.read]

theorem at_eq {i : UInt32}
    (hi : (i - s.r).toNat < (s.w - s.r).toNat) :
    s.get i = committed.getD (passed.length + (i - s.r).toNat) 0 := by
  have hle := h.passed.length_le
  rw [h.sub_w] at hi
  have hidx : i = UInt32.ofNat (passed.length + (i - s.r).toNat) := by
    rw [UInt32.ofNat_add, UInt32.ofNat_toNat, ← h.holds.read]
    rw [UInt32.add_comm, UInt32.sub_add_cancel]
  have hk : passed.length + (i - s.r).toNat < committed.length := by omega
  have hcell := h.holds.cell (passed.length + (i - s.r).toNat) (by rw [List.length_append]; omega)
    (Nat.le_add_right _ _)
  rw [Input.get]
  conv_lhs => rw [hidx]
  rw [Holds.cell_toNat cap_dvd cap_lt, hcell, List.getElem_append_left hk, List.getD_eq_getElem _ _ hk]

end

theorem unput {c : UInt8} (h : Holding s committed passed (line ++ [c])) :
    Holding { s with e := s.e - 1 } committed passed line := by
  have hholds := h.holds
  rw [← List.append_assoc] at hholds
  exact ⟨hholds.unput (h.passed.trans (List.prefix_append _ _)), h.passed, h.written⟩

theorem put (h : Holding s committed passed line) (hroom : s.e - s.r < UInt32.ofNat INPUT_BUF) (c : UInt8) :
    Holding { s with buf := upd s.buf (s.e % UInt32.ofNat INPUT_BUF).toNat c, e := s.e + 1 }
      committed passed (line ++ [c]) := by
  have hne : s.e ≠ s.r + UInt32.ofNat INPUT_BUF := by
    rintro he
    rw [he, UInt32.add_comm, UInt32.add_sub_cancel] at hroom
    exact absurd hroom (UInt32.lt_irrefl _)
  have hput := h.holds.put_one cap_dvd cap_lt hne c
  rw [List.append_assoc] at hput
  exact ⟨hput, h.passed, h.written⟩

theorem commit (h : Holding s committed passed line) :
    Holding { s with w := s.e } (committed ++ line) passed [] := by
  refine ⟨?_, h.passed.trans (List.prefix_append _ _), h.holds.written⟩
  rw [List.append_nil]
  exact h.holds

theorem next (h : Holding s committed passed line) (hne : s.r ≠ s.w) :
    Holding { s with r := s.r + 1 } committed (passed ++ [s.get s.r]) line := by
  have hlt : passed.length < committed.length :=
    Nat.lt_of_le_of_ne h.passed.length_le fun he => hne (h.r_eq_w.mpr (h.passed.eq_of_length he))
  have hre : s.r ≠ s.e := by
    intro he
    have hsub := h.sub_e
    rw [← he, UInt32.sub_self, UInt32.toNat_zero] at hsub
    omega
  have hget := h.holds.get_one cap_dvd cap_lt hre
  refine ⟨hget, List.prefix_of_prefix_length_le hget.taken (List.prefix_append _ _) ?_, h.written⟩
  rw [List.length_append, List.length_singleton]
  exact hlt

theorem window {new : List UInt8} {w : UInt32} (h : Holding s (committed ++ new) passed line)
    (hw : w = UInt32.ofNat committed.length) (hle : passed.length ≤ committed.length) :
    Fifo.window INPUT_BUF s.buf w (s.w - w).toNat = new := by
  have hroom := h.holds.room
  have hlen : (s.w - w).toNat = new.length := by
    rw [List.length_append, List.length_append] at hroom
    simp only [INPUT_BUF] at hroom
    rw [h.written, hw, UInt32.toNat_sub, UInt32.toNat_ofNat', UInt32.toNat_ofNat', List.length_append]
    omega
  rw [hlen, hw]
  have hdone : Holds INPUT_BUF s.buf s.r s.w (committed ++ new) passed := by
    refine ⟨h.passed, ?_, h.holds.read, h.written, fun k hk hgot => ?_⟩
    · rw [List.length_append] at hroom
      omega
    · have hcell := h.holds.cell k (by rw [List.length_append]; omega) hgot
      rw [hcell, List.getElem_append_left hk]
  exact hdone.window_eq cap_dvd cap_lt hle

end Holding

theorem killLine_holding : ∀ (n : Nat) (s : Input) (line : List UInt8), Holding s committed passed line →
    ∃ line', Holding (killLine n s) committed passed line'
  | 0, s, line, h => ⟨line, h⟩
  | n + 1, s, line, h => by
    rw [killLine]
    split
    · next he =>
        have hline : line ≠ [] := fun hnil => he.1 (h.e_eq_w.mpr hnil)
        rw [← List.dropLast_append_getLast hline] at h
        exact killLine_holding n _ _ h.unput
    · exact ⟨line, h⟩

theorem append_holding (h : Holding s committed passed line)
    (hroom : s.e - s.r < UInt32.ofNat INPUT_BUF) (c : UInt8) :
    ∃ new line', Holding (append s c) (committed ++ new) passed line' := by
  have hput := h.put hroom c
  unfold append
  dsimp only
  split
  · exact ⟨line ++ [c], [], hput.commit⟩
  · refine ⟨[], line ++ [c], ?_⟩
    rw [List.append_nil]
    exact hput

theorem consoleintr_holding (h : Holding s committed passed line) (c : UInt8) :
    ∃ new line', Holding (consoleintr s c) (committed ++ new) passed line' := by
  have hkeep : ∀ {t : Input} {line' : List UInt8}, Holding t committed passed line' →
      ∃ new line'', Holding t (committed ++ new) passed line'' := fun {t line'} ht =>
    ⟨[], line', by rw [List.append_nil]; exact ht⟩
  unfold consoleintr
  split
  · exact hkeep h
  · split
    · obtain ⟨line', hkill⟩ := killLine_holding (s.e - s.w).toNat s line h
      exact hkeep hkill
    · split
      · split
        · next he =>
            have hline : line ≠ [] := fun hnil => he (h.e_eq_w.mpr hnil)
            rw [← List.dropLast_append_getLast hline] at h
            exact hkeep h.unput
        · exact hkeep h
      · split
        · next hroom => exact append_holding h hroom.2 _
        · exact hkeep h

theorem killLine_r : ∀ (n : Nat) (s : Input), (killLine n s).r = s.r
  | 0, _ => rfl
  | n + 1, s => by
    rw [killLine]
    split
    · rw [killLine_r n]
    · rfl

theorem append_r (s : Input) (c : UInt8) : (append s c).r = s.r := by
  unfold append
  dsimp only
  split
  · rfl
  · rfl

theorem consoleintr_r (s : Input) (c : UInt8) : (consoleintr s c).r = s.r := by
  unfold consoleintr
  split
  · rfl
  · split
    · exact killLine_r _ s
    · split
      · split
        · rfl
        · rfl
      · split
        · exact append_r s _
        · rfl

/-! ## The invariant -/

structure Inv (x : Sys κ × Trace) : Prop where
  buffer : ∃ line, Holding x.1.input x.2.committed (x.2.taken.map Prod.fst) line
  delivered : x.2.delivered = (x.2.taken.map Prod.fst).filter (· ≠ ctrl 'D')
  past : ∀ b ∈ x.2.taken, b.2 < x.2.calls
  active : ∀ k a, x.1.call k = some a →
    a.id < x.2.calls ∧ a.left ≤ a.target ∧ (ctrl 'D', a.id) ∉ x.2.taken
  apart : ∀ j k a b, x.1.call j = some a → x.1.call k = some b → a.id = b.id → j = k
  eof : ∀ i, (ctrl 'D', i) ∈ x.2.taken → ∃ t ∈ x.2.returned, t.id = i ∧ 0 < t.target ∧ t.count = 0
  once : ((x.2.taken.filter (·.1 = ctrl 'D')).map Prod.snd).Nodup

variable {x : Sys κ × Trace} {k : κ} {a : Call}

omit [DecidableEq κ] in
theorem inv_boot : Inv (boot : Sys κ × Trace) where
  buffer := ⟨[], Holds.init _, List.prefix_refl _, rfl⟩
  delivered := rfl
  past := by rintro b ⟨⟩
  active := by rintro k a ⟨⟩
  apart := by rintro j k a b ⟨⟩
  eof := by rintro i ⟨⟩
  once := List.nodup_nil

omit [DecidableEq κ] in
theorem Inv.key (h : Inv x) (c : UInt8) : Inv (key x c) := by
  obtain ⟨line, hb⟩ := h.buffer
  obtain ⟨new, line', hb'⟩ := consoleintr_holding hb c
  have hnew := hb'.window hb.written hb.passed.length_le
  refine ⟨⟨line', ?_⟩, h.delivered, h.past, h.active, h.apart, h.eof, h.once⟩
  change Holding _ (x.2.committed ++ Fifo.window INPUT_BUF _ _ _) _ _
  rw [hnew]
  exact hb'

theorem upd_none {call : κ → Option Call} {j : κ} {b : Call} (h : upd call k none j = some b) :
    call j = some b := by
  rw [upd_apply] at h
  split at h
  · cases h
  · exact h

theorem Inv.finish (h : Inv x) (k : κ) (a : Call) : Inv (finish x k a) where
  buffer := h.buffer
  delivered := h.delivered
  past := h.past
  active := fun j b hb => h.active j b (upd_none hb)
  apart := fun i j b c hb hc => h.apart i j b c (upd_none hb) (upd_none hc)
  eof := fun i hi => by
    obtain ⟨t, ht, hrest⟩ := h.eof i hi
    exact ⟨t, List.mem_append_left _ ht, hrest⟩
  once := h.once

theorem Inv.takeEof (h : Inv x) (hcall : x.1.call k = some a) (hne : x.1.input.r ≠ x.1.input.w)
    (hc : x.1.input.get x.1.input.r = ctrl 'D') (hleft : a.left ≠ 0) (hfull : ¬ a.left < a.target) :
    Inv (Console.finish (take x a) k a) := by
  obtain ⟨line, hb⟩ := h.buffer
  obtain ⟨hid, hle, hno⟩ := h.active k a hcall
  have hget := hb.next hne
  refine ⟨⟨line, ?_⟩, ?_, ?_, ?_, ?_, ?_, ?_⟩
  · change Holding _ _ ((x.2.taken ++ [_]).map Prod.fst) line
    rw [List.map_append]
    exact hget
  · change x.2.delivered = ((x.2.taken ++ [_]).map Prod.fst).filter _
    rw [List.map_append, List.filter_append, ← h.delivered, hc]
    simp
  · intro b hb'
    rcases List.mem_append.mp hb' with hb' | hb'
    · exact h.past b hb'
    · rw [List.mem_singleton.mp hb']
      exact hid
  · intro j b hj
    have hj' : x.1.call j = some b := upd_none hj
    obtain ⟨h₁, h₂, h₃⟩ := h.active j b hj'
    refine ⟨h₁, h₂, fun hmem => ?_⟩
    rcases List.mem_append.mp hmem with hmem | hmem
    · exact h₃ hmem
    · have hsame : b.id = a.id := (Prod.mk.inj (List.mem_singleton.mp hmem)).2
      have hjk := h.apart j k b a hj' hcall hsame
      rw [hjk] at hj
      change upd x.1.call k none k = some b at hj
      rw [upd_same] at hj
      cases hj
  · exact fun i j b c hb' hc' => h.apart i j b c (upd_none hb') (upd_none hc')
  · intro i hi
    rcases List.mem_append.mp hi with hi | hi
    · obtain ⟨t, ht, hrest⟩ := h.eof i hi
      exact ⟨t, List.mem_append_left _ ht, hrest⟩
    · refine ⟨⟨a.id, a.target, a.target - a.left⟩, List.mem_append_right _ (List.mem_singleton.mpr rfl),
        (Prod.mk.inj (List.mem_singleton.mp hi)).2.symm, ?_, ?_⟩
      · change 0 < a.target
        omega
      · change a.target - a.left = 0
        omega
  · change (((x.2.taken ++ [_]).filter _).map Prod.snd).Nodup
    rw [List.filter_append, hc]
    simp only [List.filter_cons, decide_true, List.filter_nil, List.map_append, if_true]
    refine List.nodup_append.mpr ⟨h.once, List.nodup_singleton _, ?_⟩
    rintro i hi j hj rfl
    obtain ⟨b, hb', rfl⟩ := List.mem_map.mp hi
    obtain ⟨hmem, hd⟩ := List.mem_filter.mp hb'
    rw [decide_eq_true_eq] at hd
    have hbid : b.2 = a.id := List.mem_singleton.mp hj
    refine hno ?_
    rw [← hd, ← hbid]
    exact hmem

theorem Inv.takeByte (h : Inv x) (hcall : x.1.call k = some a) (hne : x.1.input.r ≠ x.1.input.w)
    (hc : x.1.input.get x.1.input.r ≠ ctrl 'D') : Inv (take (store x k a) a) := by
  obtain ⟨line, hb⟩ := h.buffer
  obtain ⟨hid, hle, hno⟩ := h.active k a hcall
  have hget := hb.next hne
  have hold : ∀ j b, upd x.1.call k (some { a with left := a.left - 1 }) j = some b →
      ∃ b', x.1.call j = some b' ∧ b'.id = b.id ∧ b.left ≤ b'.left ∧ b.target = b'.target := by
    intro j b hj
    rw [upd_apply] at hj
    split at hj
    · next hjk =>
        cases hj
        exact ⟨a, by rw [hjk]; exact hcall, rfl, Nat.sub_le _ _, rfl⟩
    · exact ⟨b, hj, rfl, Nat.le_refl _, rfl⟩
  have hnew : ∀ i, (ctrl 'D', i) ∈ x.2.taken ++ [(x.1.input.get x.1.input.r, a.id)] →
      (ctrl 'D', i) ∈ x.2.taken := by
    intro i hi
    rcases List.mem_append.mp hi with hi | hi
    · exact hi
    · exact absurd (Prod.mk.inj (List.mem_singleton.mp hi)).1.symm hc
  refine ⟨⟨line, ?_⟩, ?_, ?_, ?_, ?_, ?_, ?_⟩
  · change Holding _ _ ((x.2.taken ++ [_]).map Prod.fst) line
    rw [List.map_append]
    exact hget
  · change x.2.delivered ++ [_] = ((x.2.taken ++ [_]).map Prod.fst).filter _
    rw [List.map_append, List.filter_append, ← h.delivered]
    simp [store, hc]
  · intro b hb'
    rcases List.mem_append.mp hb' with hb' | hb'
    · exact h.past b hb'
    · rw [List.mem_singleton.mp hb']
      exact hid
  · intro j b hj
    obtain ⟨b', hj', hidb, hleft, htarget⟩ := hold j b hj
    obtain ⟨h₁, h₂, h₃⟩ := h.active j b' hj'
    refine ⟨?_, by omega, fun hmem => h₃ ?_⟩
    · rw [← hidb]
      exact h₁
    · rw [hidb]
      exact hnew _ hmem
  · intro i j b c hb' hc' hid'
    obtain ⟨b₁, hb₁, hidb, -⟩ := hold i b hb'
    obtain ⟨c₁, hc₁, hidc, -⟩ := hold j c hc'
    exact h.apart i j b₁ c₁ hb₁ hc₁ (by rw [hidb, hidc]; exact hid')
  · exact fun i hi => h.eof i (hnew i hi)
  · change (((x.2.taken ++ [_]).filter _).map Prod.snd).Nodup
    rw [List.filter_append]
    simpa [store, hc] using h.once

theorem Inv.turn (h : Inv x) (hcall : x.1.call k = some a) : Inv (turn x k a) := by
  unfold Console.turn
  split
  · exact h.finish k a
  · next hleft =>
      split
      · exact h
      · next hne =>
          split
          · next hc =>
              split
              · exact h.finish k a
              · next hfull => exact h.takeEof hcall hne hc hleft hfull
          · next hc =>
              have hbyte := h.takeByte hcall hne hc
              dsimp only
              split
              · exact hbyte.finish k _
              · exact hbyte

theorem Inv.read (h : Inv x) (n : Nat) : Inv ({ x.1 with call := upd x.1.call k (some ⟨n, n, x.2.calls⟩) },
      { x.2 with calls := x.2.calls + 1 }) := by
  refine ⟨h.buffer, h.delivered, fun b hb => Nat.lt_succ_of_lt (h.past b hb), ?_, ?_, h.eof, h.once⟩
  · intro j b hj
    change upd x.1.call k _ j = some b at hj
    rw [upd_apply] at hj
    split at hj
    · cases hj
      exact ⟨Nat.lt_succ_self _, Nat.le_refl _, fun hmem => absurd (h.past _ hmem) (Nat.lt_irrefl _)⟩
    · obtain ⟨h₁, h₂, h₃⟩ := h.active j b hj
      exact ⟨Nat.lt_succ_of_lt h₁, h₂, h₃⟩
  · intro i j b c hb hc hid
    change upd x.1.call k _ i = some b at hb
    change upd x.1.call k _ j = some c at hc
    rw [upd_apply] at hb hc
    split at hb
    · next hi =>
        cases hb
        split at hc
        · next hj => rw [hi, hj]
        · exact absurd (h.active j c hc).1 (by rw [← hid]; exact Nat.lt_irrefl _)
    · split at hc
      · cases hc
        exact absurd (h.active i b hb).1 (by rw [hid]; exact Nat.lt_irrefl _)
      · exact h.apart i j b c hb hc hid

theorem inv_step {y : Sys κ × Trace} {e : Event κ} (hstep : step x e = some y) (h : Inv x) : Inv y := by
  cases e with
  | key c =>
    cases hstep
    exact h.key c
  | read k n =>
    rw [step] at hstep
    split at hstep
    · cases hstep
    · cases hstep
      exact h.read n
  | turn k =>
    obtain ⟨a, ha, rfl⟩ := Option.map_eq_some_iff.mp hstep
    exact h.turn ha

/-! ## Runs -/

/-- What the console guarantees. -/
structure Disciplined (x : Sys κ × Trace) : Prop where
  order : (x.1.input.w - x.1.input.r).toNat ≤ (x.1.input.e - x.1.input.r).toNat ∧
    (x.1.input.e - x.1.input.r).toNat ≤ INPUT_BUF
  /-- No character changes a byte from `r` to `w`, or moves `w` back. -/
  edit : ∀ c i, (i - x.1.input.r).toNat < (x.1.input.w - x.1.input.r).toNat →
    (consoleintr x.1.input c).get i = x.1.input.get i ∧
    (i - x.1.input.r).toNat < ((consoleintr x.1.input c).w - x.1.input.r).toNat
  passed : x.2.taken.map Prod.fst <+: x.2.committed
  delivered : x.2.delivered = (x.2.taken.map Prod.fst).filter (· ≠ ctrl 'D') ∧
    x.2.delivered <+: x.2.committed.filter (· ≠ ctrl 'D')
  /-- The call that has consumed a `^D` has a positive size and has returned 0. -/
  eof : ∀ i, (ctrl 'D', i) ∈ x.2.taken → ∃ t ∈ x.2.returned, t.id = i ∧ 0 < t.target ∧ t.count = 0
  /-- No call has consumed two of them. -/
  once : ((x.2.taken.filter (·.1 = ctrl 'D')).map Prod.snd).Nodup

omit [DecidableEq κ] in
theorem Inv.disciplined (h : Inv x) : Disciplined x := by
  obtain ⟨line, hb⟩ := h.buffer
  have hle := hb.passed.length_le
  refine ⟨⟨?_, ?_⟩, ?_, hb.passed, ⟨h.delivered, ?_⟩, h.eof, h.once⟩
  · rw [hb.sub_w, hb.sub_e]
    omega
  · have hroom := hb.holds.room
    rw [List.length_append] at hroom
    rw [hb.sub_e]
    omega
  · intro c i hi
    obtain ⟨new, line', hb'⟩ := consoleintr_holding hb c
    have hr := consoleintr_r x.1.input c
    have hi' : (i - (consoleintr x.1.input c).r).toNat <
        ((consoleintr x.1.input c).w - (consoleintr x.1.input c).r).toNat := by
      rw [hb'.sub_w, hr, List.length_append]
      rw [hb.sub_w] at hi
      omega
    refine ⟨?_, by rw [hr] at hi'; exact hi'⟩
    rw [hb'.at_eq hi', hb.at_eq hi, hr, List.getD_append]
    rw [hb.sub_w] at hi
    omega
  · rw [h.delivered]
    exact hb.passed.filter _

/-- **The line discipline.**  In every run of characters and reads the indices are in order,
editing changes no byte below `w`, the bytes delivered are a beginning of those committed
without the `^D`s, and each `^D` that was passed made one read of a positive size return 0. -/
theorem line_discipline {es : List (Event κ)} {x : Sys κ × Trace} (hrun : run step boot es = some x) :
    Disciplined x :=
  (run_invariant (fun _ _ _ => inv_step) hrun inv_boot).disciplined

/-- The characters `a`, backspace, `b` and `^D`, and three reads: `b`, the end of the file, and one
that waits. -/
def typeAndRead : List (Event (Fin 1)) :=
  [.key 97, .key 8, .key 98, .key 4, .read 0 10, .turn 0, .turn 0, .read 0 10, .turn 0, .read 0 1, .turn 0]

theorem line_discipline_eof : ∃ x, run step boot typeAndRead = some x ∧ x.2.delivered = [98] ∧
    x.2.committed = [98, 4] ∧ Disciplined x := by
  have hrun : (run step boot typeAndRead).map (fun x => (x.2.delivered, x.2.committed)) =
      some ([98], [98, 4]) := by decide +kernel
  obtain ⟨x, hx, he⟩ := Option.map_eq_some_iff.mp hrun
  obtain ⟨hd, hc⟩ := Prod.mk.inj he
  exact ⟨x, hx, hd, hc, line_discipline hx⟩

end Xv6.Console
