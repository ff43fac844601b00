import Xv6.Lib.Table
import Xv6.Lib.Trans
import Mathlib.Tactic.Common

/-!
# Spin locks

`acquire()`, `release()` and `holding()` of `spinlock.c` on one lock, one access to the lock at a
time, for any number of CPUs, which may call `acquire()` and `release()` whether they have the lock
or not. `pushcli()` and `popcli()`, which keep a CPU from being interrupted there, are left out.

`lk->cpu` is written after the lock is taken and before it is given back, so that `holding()` may
read its two words in the middle of a call of another CPU. Its answer is right all the same.
-/

namespace Xv6.Spin

open Table Trans

inductive Op where
  | acquire
  | release

/-- Where a CPU stands, by what it does next. -/
inductive Pc where
  | out
  /-- In `holding()`: the read of `lock->locked`. -/
  | locked (op : Op)
  /-- The read of `lock->cpu`. -/
  | cpu (op : Op)
  | xchg
  /-- `lk->cpu = mycpu()`. -/
  | record
  /-- `lk->cpu = 0`. -/
  | clear
  /-- `lk->locked = 0`. -/
  | unlock
  | panicked (op : Op)

structure Sys (n : Nat) where
  locked : Bool
  /-- `lk->cpu`, a null pointer if it is `none`. -/
  owner : Option (Fin n)
  pc : Fin n → Pc

variable {n : Nat}

def initlock : Sys n := ⟨false, none, fun _ => .out⟩

def Sys.goto (s : Sys n) (k : Fin n) (p : Pc) : Sys n := { s with pc := upd s.pc k p }

/-- What the caller of `holding()` does with the answer. -/
def Op.after : Op → Bool → Pc
  | .acquire, true => .panicked .acquire
  | .acquire, false => .xchg
  | .release, true => .clear
  | .release, false => .panicked .release

/-- The next step of CPU `k`, which calls `call` if it is in no function. -/
def step (s : Sys n) : Fin n × Op → Option (Sys n)
  | (k, call) =>
    match s.pc k with
    | .out => some (s.goto k (.locked call))
    | .locked op => some (s.goto k (if s.locked then .cpu op else op.after false))
    | .cpu op => some (s.goto k (op.after (decide (s.owner = some k))))
    | .xchg => some (if s.locked then s else ⟨true, s.owner, upd s.pc k .record⟩)
    | .record => some ⟨s.locked, some k, upd s.pc k .out⟩
    | .clear => some ⟨s.locked, none, upd s.pc k .unlock⟩
    | .unlock => some ⟨false, s.owner, upd s.pc k .out⟩
    | .panicked _ => none

/-! ## The invariant -/

/-- The CPU has taken the lock, and `lk->cpu` is not set yet or no more. -/
def Pc.amid : Pc → Bool
  | .record | .unlock => true
  | _ => false

def Owns (s : Sys n) (k : Fin n) : Prop := s.owner = some k ∨ (s.pc k).amid = true

/-- What the CPU has found out. A panic is the fault of the caller. -/
def Pc.Knows (mine : Bool) : Pc → Prop
  | .xchg | .panicked .release => mine = false
  | .clear | .panicked .acquire => mine = true
  | _ => True

/-- `a` is the CPU that is amid. -/
structure LockOk (s : Sys n) (a : Option (Fin n)) : Prop where
  amid : ∀ j, (s.pc j).amid = decide (a = some j)
  locked : s.locked = (s.owner <|> a).isSome
  vacant : s.owner = none ∨ a = none
  knows : ∀ j, (s.pc j).Knows (decide (s.owner = some j))

variable {s t : Sys n} {k : Fin n} {a : Option (Fin n)} {p : Pc}

theorem LockOk.advance {a' : Option (Fin n)} (h : LockOk s a) {locked : Bool} {owner : Option (Fin n)}
    (ha : ∀ j, j ≠ k → (a' = some j ↔ a = some j)) (ho : ∀ j, j ≠ k → (owner = some j ↔ s.owner = some j))
    (hamid : p.amid = decide (a' = some k)) (hlocked : locked = (owner <|> a').isSome)
    (hvacant : owner = none ∨ a' = none) (hp : p.Knows (decide (owner = some k))) :
    LockOk ⟨locked, owner, upd s.pc k p⟩ a' := by
  refine ⟨fun j => ?_, hlocked, hvacant, fun j => ?_⟩
  · by_cases hj : j = k
    · simpa [hj] using hamid
    · simpa [hj, ha j hj] using h.amid j
  · by_cases hj : j = k
    · simpa [hj] using hp
    · simpa [hj, ho j hj] using h.knows j

/-- A step that leaves the lock alone. -/
theorem LockOk.goto (h : LockOk s a) (hamid : p.amid = (s.pc k).amid)
    (hp : p.Knows (decide (s.owner = some k))) : LockOk (s.goto k p) a :=
  h.advance (fun _ _ => Iff.rfl) (fun _ _ => Iff.rfl) (hamid.trans (h.amid k)) h.locked h.vacant hp

theorem Op.after_ok (op : Op) (mine : Bool) :
    (op.after mine).amid = false ∧ (op.after mine).Knows mine := by
  cases op <;> cases mine <;> exact ⟨rfl, rfl⟩

theorem step_ok {e : Fin n × Op} (hstep : step s e = some t) (h : LockOk s a) : ∃ a', LockOk t a' := by
  obtain ⟨k, call⟩ := e
  have hk := h.knows k
  have hamid := h.amid k
  have hv := h.vacant
  have hl := h.locked
  cases hpc : s.pc k <;> simp only [step, hpc] at hstep <;> cases hstep <;> rw [hpc] at hamid hk
  case out => exact ⟨a, h.goto (by rw [hpc]; rfl) trivial⟩
  case locked op =>
    refine ⟨a, h.goto ?_ ?_⟩ <;> split
    · rw [hpc]; rfl
    · rw [hpc]; exact (op.after_ok false).1
    · trivial
    next hfree =>
      rw [show decide (s.owner = some k) = false by grind]
      exact (op.after_ok false).2
  case cpu op =>
    exact ⟨a, h.goto (by rw [hpc]; exact (op.after_ok _).1) (op.after_ok _).2⟩
  case xchg =>
    split
    · exact ⟨a, h⟩
    next hfree =>
      obtain ⟨ho, ha⟩ : s.owner = none ∧ a = none := by
        cases ho : s.owner with
        | none => simpa [h.locked, ho] using hfree
        | some j => simp [h.locked, ho] at hfree
      refine ⟨some k, h.advance ?_ (fun _ _ => Iff.rfl) ?_ ?_ ?_ trivial⟩
      all_goals grind [Pc.amid]
  case record =>
    refine ⟨none, h.advance ?_ ?_ ?_ ?_ ?_ trivial⟩ <;> grind [Pc.amid]
  case clear =>
    have hown : s.owner = some k := of_decide_eq_true hk
    refine ⟨some k, h.advance ?_ ?_ ?_ ?_ ?_ trivial⟩ <;> grind [Pc.amid]
  case unlock =>
    refine ⟨none, h.advance ?_ (fun _ _ => Iff.rfl) ?_ ?_ ?_ trivial⟩
    all_goals grind [Pc.amid]

/-- **Spin locks exclude.** In every interleaving the lock has at most one owner, and a CPU that
spins waits for another one. A panic is for an `acquire()` of the owner or a `release()` of another. -/
theorem spinlock_excludes {es : List (Fin n × Op)} (hrun : run step initlock es = some s) :
    (∀ j k, Owns s j → Owns s k → j = k) ∧
    (s.locked = true ↔ ∃ k, Owns s k) ∧
    (∀ k, s.pc k = .xchg → s.locked = true → ∃ j, j ≠ k ∧ Owns s j) ∧
    ∀ k op, s.pc k = .panicked op → (op = .acquire ↔ Owns s k) := by
  obtain ⟨a, h⟩ : ∃ a, LockOk s a := run_invariant (P := fun s => ∃ a, LockOk s a)
    (fun _ _ _ hst ⟨_, h⟩ => step_ok hst h) hrun
    ⟨none, fun _ => rfl, rfl, .inl rfl, fun _ => trivial⟩
  have howns : ∀ j, Owns s j ↔ (s.owner <|> a) = some j := by
    intro j
    have := h.vacant
    have := h.amid j
    grind [Owns]
  have hlocked : s.locked = true ↔ ∃ k, Owns s k := by
    simp only [h.locked, howns, Option.isSome_iff_exists]
  refine ⟨fun j k hj hk => ?_, hlocked, fun k hpc hlk => ?_, fun k op hpc => ?_⟩
  · exact Option.some.inj (((howns j).mp hj).symm.trans ((howns k).mp hk))
  · obtain ⟨j, hj⟩ := hlocked.mp hlk
    refine ⟨j, ?_, hj⟩
    rintro rfl
    have := h.knows j
    grind [Owns, Pc.Knows, Pc.amid]
  · have := h.knows k
    cases op <;> grind [Owns, Pc.Knows, Pc.amid]

/-- CPU `j` acquires the lock, and CPU `k` spins. -/
def takeAndSpin (j k : Fin n) : List (Fin n × Op) :=
  [j, j, j, j, k, k, k, k].map fun i => (i, .acquire)

theorem spinlock_excludes_two : ∃ s : Sys 2, run step initlock (takeAndSpin 0 1) = some s ∧
    Owns s 0 ∧ s.pc 1 = .xchg ∧ ∃ j, j ≠ 1 ∧ Owns s j :=
  ⟨_, rfl, .inl rfl, rfl, (@spinlock_excludes 2 _ (takeAndSpin 0 1) rfl).2.2.1 1 rfl rfl⟩

end Xv6.Spin
