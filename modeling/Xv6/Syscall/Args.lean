import Xv6.Vm.Basic

/-!
# The arguments of system calls

`fetchint`, `fetchstr`, `argint`, `argptr` and `argstr` of `syscall.c` and the walk of
`sys_exec` over `argv`, with 32-bit numbers that wrap around. A load at an address that
is not below the size of the process is a fault, so a function that never ends in one
reads only the memory of the process.
-/

namespace Xv6.Args

open Vm (KERNBASE)

/-- A `uint`, an `int` or a pointer. -/
abbrev Word : Type := BitVec 32

structure Proc where
  sz : Word
  /-- `tf->esp`. -/
  esp : Word
  mem : Word → UInt8

/-- A load outside the process. -/
inductive Fault where
  | fault

abbrev Load (α : Type) : Type := Except Fault α

def Proc.load (p : Proc) (a : Word) : Load UInt8 := if a < p.sz then return p.mem a else throw .fault

/-- The four bytes at `a`, lowest first. -/
def Proc.word (p : Proc) (a : Word) : Word :=
  (p.mem (a + 3)).toBitVec ++ (p.mem (a + 2)).toBitVec ++ (p.mem (a + 1)).toBitVec ++ (p.mem a).toBitVec

def Proc.loadInt (p : Proc) (a : Word) : Load Word := do
  let b0 ← p.load a
  let b1 ← p.load (a + 1)
  let b2 ← p.load (a + 2)
  let b3 ← p.load (a + 3)
  return b3.toBitVec ++ b2.toBitVec ++ b1.toBitVec ++ b0.toBitVec

/-- Fetch the int at `addr`; none is -1. -/
def fetchint (p : Proc) (addr : Word) : Load (Option Word) :=
  if addr ≥ p.sz ∨ addr + 4 > p.sz then return none else return some (← p.loadInt addr)

/-- The loop of `fetchstr` from `s` on, with at most a number of iterations. -/
def strLoop (p : Proc) (pp : Word) : Nat → Word → Load Int
  | 0, _ => return -1
  | n + 1, s =>
    if s < p.sz then do
      if (← p.load s) = 0 then return (s - pp).toInt else strLoop p pp n (s + 1)
    else return -1

/-- The length of the string at `addr`, or -1. -/
def fetchstr (p : Proc) (addr : Word) : Load Int :=
  if addr ≥ p.sz then return -1 else strLoop p addr (2 ^ 32) addr

/-- Fetch the argument with number `n`. -/
def argint (p : Proc) (n : Word) : Load (Option Word) := fetchint p (p.esp + 4 + 4 * n)

/-- Fetch an argument that points to `size` bytes. -/
def argptr (p : Proc) (n size : Word) : Load (Option Word) := do
  match ← argint p n with
  | none => return none
  | some i => return if size.toInt < 0 ∨ i ≥ p.sz ∨ i + size > p.sz then none else some i

/-- Fetch an argument that points to a string. -/
def argstr (p : Proc) (n : Word) : Load (Option Word) := do
  match ← argint p n with
  | none => return none
  | some addr => return if (← fetchstr p addr) < 0 then none else some addr

/-- Maximum number of arguments of `exec`. -/
abbrev MAXARG : Nat := 32

/-- The loop of `sys_exec`, with `n` elements of `argv` left. -/
def argvLoop (p : Proc) (uargv : Word) : Nat → Word → Load (Option (List Word))
  | 0, _ => return none
  | n + 1, i => do
    match ← fetchint p (uargv + 4 * i) with
    | none => return none
    | some uarg =>
      if uarg = 0 then return some []
      else if (← fetchstr p uarg) < 0 then return none
      else return (← argvLoop p uargv n (i + 1)).map fun argv => uarg :: argv

/-- `sys_exec` up to the call of `exec`. -/
def sysExec (p : Proc) : Load (Option (Word × List Word)) := do
  match ← argstr p 0 with
  | none => return none
  | some path =>
    match ← argint p 1 with
    | none => return none
    | some uargv => return (← argvLoop p uargv MAXARG 0).map fun argv => (path, argv)

/-! ## What they accept -/

variable {p : Proc} {addr n size : Word}

theorem fetchint_eq (hsz : p.sz.toNat < KERNBASE) (addr : Word) :
    fetchint p addr = .ok (if addr.toNat + 4 ≤ p.sz.toNat then some (p.word addr) else none) := by
  unfold fetchint
  simp only [KERNBASE] at hsz
  by_cases h : addr.toNat + 4 ≤ p.sz.toNat
  · have hload : ∀ a : Word, a.toNat < p.sz.toNat → p.load a = .ok (p.mem a) := fun a ha => if_pos (BitVec.lt_def.mpr ha)
    rw [if_neg (by bv_omega), if_pos h, Proc.loadInt, hload addr (by omega), hload (addr + 1) (by bv_omega),
      hload (addr + 2) (by bv_omega), hload (addr + 3) (by bv_omega)]
    rfl
  · rw [if_pos (by bv_omega), if_neg h]
    rfl

/-- The first NUL at or after `addr` is at `addr + len`, in the process. -/
def NulAt (p : Proc) (addr : Word) (len : Nat) : Prop :=
  addr.toNat + len < p.sz.toNat ∧ p.mem (addr + BitVec.ofNat 32 len) = 0 ∧
    ∀ i < len, p.mem (addr + BitVec.ofNat 32 i) ≠ 0

theorem NulAt.unique {k l : Nat} (h : NulAt p addr k) (h' : NulAt p addr l) : k = l := by
  rcases Nat.lt_trichotomy k l with hlt | heq | hgt
  · exact absurd h.2.1 (h'.2.2 k hlt)
  · exact heq
  · exact absurd h'.2.1 (h.2.2 l hgt)

theorem strLoop_spec (addr : Word) (hsz : p.sz.toNat < KERNBASE) : ∀ (fuel k : Nat),
    addr.toNat + k ≤ p.sz.toNat → p.sz.toNat < addr.toNat + k + fuel →
    (∀ i < k, p.mem (addr + BitVec.ofNat 32 i) ≠ 0) →
    ∃ r, strLoop p addr fuel (addr + BitVec.ofNat 32 k) = .ok r ∧ (r = -1 ∨ 0 ≤ r) ∧
      ∀ len : Nat, r = len ↔ NulAt p addr len
  | 0, k, hk, hf, _ => absurd hf (by omega)
  | fuel + 1, k, hk, hf, hno => by
    simp only [KERNBASE] at hsz
    have hs : (addr + BitVec.ofNat 32 k).toNat = addr.toNat + k := by bv_omega
    rw [strLoop]
    by_cases hlt : addr.toNat + k < p.sz.toNat
    · have hin : addr + BitVec.ofNat 32 k < p.sz := BitVec.lt_def.mpr (hs ▸ hlt)
      rw [if_pos hin, Proc.load, if_pos hin]
      change ∃ r, (if p.mem _ = 0 then _ else _) = _ ∧ _
      by_cases hnul : p.mem (addr + BitVec.ofNat 32 k) = 0
      · have hlen : (addr + BitVec.ofNat 32 k - addr).toInt = (k : Int) := by
          rw [show addr + BitVec.ofNat 32 k - addr = BitVec.ofNat 32 k by grind, BitVec.toInt_eq_toNat_cond,
            BitVec.toNat_ofNat, Nat.mod_eq_of_lt (by omega), if_pos (by omega)]
        have hat : NulAt p addr k := ⟨hlt, hnul, hno⟩
        refine ⟨k, by rw [if_pos hnul, hlen]; rfl, .inr (Int.natCast_nonneg k), fun len => ?_⟩
        rw [Int.natCast_inj]
        exact ⟨fun h => h ▸ hat, fun h => hat.unique h⟩
      · rw [if_neg hnul, show addr + BitVec.ofNat 32 k + 1 = addr + BitVec.ofNat 32 (k + 1) by
          rw [BitVec.ofNat_add, BitVec.add_assoc]; rfl]
        refine strLoop_spec addr (by simpa only [KERNBASE]) fuel (k + 1) (by omega) (by omega) fun i hi => ?_
        rcases Nat.lt_succ_iff_lt_or_eq.mp hi with hi | rfl
        · exact hno i hi
        · exact hnul
    · rw [if_neg fun hc => hlt (hs ▸ BitVec.lt_def.mp hc)]
      refine ⟨-1, rfl, .inl rfl, fun len => ⟨fun h => by omega, fun h => ?_⟩⟩
      exact absurd h.2.1 (hno len (by have := h.1; omega))

theorem fetchstr_spec (hsz : p.sz.toNat < KERNBASE) (addr : Word) :
    ∃ r, fetchstr p addr = .ok r ∧ (r = -1 ∨ 0 ≤ r) ∧ ∀ len : Nat, r = len ↔ NulAt p addr len := by
  unfold fetchstr
  by_cases h : addr ≥ p.sz
  · rw [if_pos h]
    refine ⟨-1, rfl, .inl rfl, fun len => ⟨fun h => by omega, fun hn => ?_⟩⟩
    have := hn.1
    have := BitVec.le_def.mp h
    omega
  · rw [if_neg h]
    have hspec := strLoop_spec addr hsz (2 ^ 32) 0 (by bv_omega) (by bv_omega) fun i hi =>
      absurd hi (Nat.not_lt_zero i)
    rwa [BitVec.add_zero] at hspec

theorem fetchstr_accepts (hsz : p.sz.toNat < KERNBASE) (addr : Word) :
    ∃ r, fetchstr p addr = .ok r ∧ (¬ r < 0 → ∃ len, NulAt p addr len) := by
  obtain ⟨r, hr, -, hlen⟩ := fetchstr_spec hsz addr
  exact ⟨r, hr, fun h => ⟨r.toNat, (hlen r.toNat).mp (by omega)⟩⟩

theorem argint_eq (hsz : p.sz.toNat < KERNBASE) (n : Word) :
    argint p n = .ok (if (p.esp + 4 + 4 * n).toNat + 4 ≤ p.sz.toNat then some (p.word (p.esp + 4 + 4 * n))
      else none) := fetchint_eq hsz _

theorem argptr_eq (hsz : p.sz.toNat < KERNBASE) (n size : Word) :
    ∃ r, argptr p n size = .ok r ∧ ∀ i, r = some i ↔
      ((p.esp + 4 + 4 * n).toNat + 4 ≤ p.sz.toNat ∧ i = p.word (p.esp + 4 + 4 * n)) ∧
      0 ≤ size.toInt ∧ i.toNat < p.sz.toNat ∧ i.toNat + size.toInt ≤ p.sz.toNat := by
  unfold argptr
  rw [argint_eq hsz]
  generalize p.esp + 4 + 4 * n = a
  simp only [KERNBASE] at hsz
  by_cases ha : a.toNat + 4 ≤ p.sz.toNat
  · rw [if_pos ha]
    refine ⟨_, rfl, fun i => ?_⟩
    have hsize := BitVec.toInt_eq_toNat_cond size
    -- neither sum wraps around, since the operands are below `2 ^ 31`
    have hok : ¬ (size.toInt < 0 ∨ p.word a ≥ p.sz ∨ p.word a + size > p.sz) ↔
        0 ≤ size.toInt ∧ (p.word a).toNat < p.sz.toNat ∧ (p.word a).toNat + size.toInt ≤ p.sz.toNat := by
      split at hsize
      · bv_omega
      · bv_omega
    by_cases hbad : size.toInt < 0 ∨ p.word a ≥ p.sz ∨ p.word a + size > p.sz
    · rw [if_pos hbad]
      exact ⟨fun h => (by cases h), fun ⟨⟨_, hi⟩, h⟩ => absurd hbad (hok.mpr (hi ▸ h))⟩
    · rw [if_neg hbad, Option.some.injEq]
      exact ⟨fun h => h ▸ ⟨⟨ha, rfl⟩, hok.mp hbad⟩, fun h => h.1.2.symm⟩
  · rw [if_neg ha]
    exact ⟨none, rfl, fun i => ⟨fun h => (by cases h), fun h => absurd h.1.1 ha⟩⟩

theorem argstr_accepts (hsz : p.sz.toNat < KERNBASE) (n : Word) :
    ∃ r, argstr p n = .ok r ∧ ∀ a, r = some a → ∃ len, NulAt p a len := by
  unfold argstr
  rw [argint_eq hsz]
  split
  case isTrue =>
    obtain ⟨r, hr, hnul⟩ := fetchstr_accepts hsz (p.word (p.esp + 4 + 4 * n))
    change ∃ r, (do return if (← fetchstr p _) < 0 then none else some _ : Load (Option Word)) = _ ∧ _
    rw [hr]
    refine ⟨_, rfl, fun a ha => ?_⟩
    split at ha
    case isTrue => cases ha
    case isFalse h =>
      cases ha
      exact hnul h
  case isFalse => exact ⟨none, rfl, fun a ha => by cases ha⟩

theorem argvLoop_accepts (hsz : p.sz.toNat < KERNBASE) (uargv : Word) : ∀ (n : Nat) (i : Word),
    ∃ r, argvLoop p uargv n i = .ok r ∧ ∀ argv, r = some argv → ∀ a ∈ argv, ∃ len, NulAt p a len
  | 0, _ => ⟨none, rfl, fun _ h => by cases h⟩
  | n + 1, i => by
    rw [argvLoop, fetchint_eq hsz]
    split
    case isTrue =>
      generalize p.word (uargv + 4 * i) = uarg
      change ∃ r, (if uarg = 0 then _ else _) = _ ∧ _
      split
      case isTrue => exact ⟨some [], rfl, fun argv h a ha => by cases h; cases ha⟩
      case isFalse =>
        obtain ⟨r, hr, hnul⟩ := fetchstr_accepts hsz uarg
        obtain ⟨rest, hrest, hstr⟩ := argvLoop_accepts hsz uargv n (i + 1)
        rw [hr, hrest]
        change ∃ t, (if r < 0 then _ else _) = _ ∧ _
        split
        case isTrue => exact ⟨none, rfl, fun _ h => by cases h⟩
        case isFalse h =>
          refine ⟨_, rfl, fun argv hargv a ha => ?_⟩
          obtain ⟨tail, htail, rfl⟩ := Option.map_eq_some_iff.mp hargv
          rcases List.mem_cons.mp ha with rfl | ha
          · exact hnul h
          · exact hstr tail htail a ha
    case isFalse => exact ⟨none, rfl, fun _ h => by cases h⟩

theorem sysExec_accepts (hsz : p.sz.toNat < KERNBASE) : ∃ r, sysExec p = .ok r ∧
    ∀ path argv, r = some (path, argv) → ∀ a ∈ path :: argv, ∃ len, NulAt p a len := by
  obtain ⟨r, hr, hpath⟩ := argstr_accepts hsz 0
  unfold sysExec
  rw [hr, argint_eq hsz]
  cases r with
  | none => exact ⟨none, rfl, fun _ _ h => by cases h⟩
  | some path =>
    split
    case isTrue =>
      obtain ⟨r, hr, hargv⟩ := argvLoop_accepts hsz (p.word (p.esp + 4 + 4 * 1)) MAXARG 0
      change ∃ r, (do return (← argvLoop p _ MAXARG 0).map fun argv => (path, argv) : Load _) = _ ∧ _
      rw [hr]
      refine ⟨_, rfl, fun path' argv h a ha => ?_⟩
      obtain ⟨argv', hargv', ⟨⟩⟩ := Option.map_eq_some_iff.mp h
      rcases List.mem_cons.mp ha with rfl | ha
      · exact hpath a rfl
      · exact hargv argv hargv' a ha
    case isFalse => exact ⟨none, rfl, fun _ _ h => by cases h⟩

/-- The checks accept what is in the process and nothing else, and none of the functions faults. -/
theorem args_exact (p : Proc) (hsz : p.sz.toNat < KERNBASE) :
    (∀ addr, ∃ r, fetchint p addr = .ok r ∧ (r.isSome ↔ addr.toNat + 4 ≤ p.sz.toNat)) ∧
    (∀ addr, ∃ r, fetchstr p addr = .ok r ∧ (r = -1 ∨ 0 ≤ r) ∧ ∀ len : Nat, r = len ↔ NulAt p addr len) ∧
    (∀ n size, ∃ r, argptr p n size = .ok r ∧ ∀ i, r = some i ↔
      ((p.esp + 4 + 4 * n).toNat + 4 ≤ p.sz.toNat ∧ i = p.word (p.esp + 4 + 4 * n)) ∧
      0 ≤ size.toInt ∧ i.toNat < p.sz.toNat ∧ i.toNat + size.toInt ≤ p.sz.toNat) ∧
    (∀ n, ∃ r, argstr p n = .ok r ∧ ∀ a, r = some a → ∃ len, NulAt p a len) ∧
    ∃ r, sysExec p = .ok r ∧ ∀ path argv, r = some (path, argv) →
      ∀ a ∈ path :: argv, ∃ len, NulAt p a len := by
  refine ⟨fun addr => ⟨_, fetchint_eq hsz addr, ?_⟩, fetchstr_spec hsz, argptr_eq hsz, argstr_accepts hsz,
    sysExec_accepts hsz⟩
  split <;> simp [*]

/-- A process of one page, whose arguments are at the end of it. -/
theorem args_exact_page : ∃ r, fetchstr ⟨4096, 4092, fun _ => 1⟩ 4095 = .ok r ∧ r = -1 := by
  obtain ⟨r, hr, hsign, hlen⟩ := (args_exact ⟨4096, 4092, fun _ => 1⟩ (by decide)).2.1 4095
  refine ⟨r, hr, hsign.resolve_right fun h => ?_⟩
  exact absurd ((hlen r.toNat).mp (by omega)).2.1 (by decide : (1 : UInt8) ≠ 0)

end Xv6.Args
