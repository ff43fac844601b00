import Mathlib.Data.Nat.Basic

/-!
# Scanning a table

The first index of a range at which a test succeeds, as a `for` loop with a
`break` or a `return` finds it. `firstFrom` scans numbers and `firstFin` scans
the indices of a table. The scan is structural on the number of indices left,
so it evaluates.
-/

namespace Scan

/-- The first `i` of `lo, .., lo + n - 1` with `p i`. -/
def firstFrom (p : Nat → Bool) : Nat → Nat → Option Nat
  | _, 0 => none
  | lo, n + 1 => if p lo then some lo else firstFrom p (lo + 1) n

variable {p : Nat → Bool}

/-- What a scan finds is in the range and passes the test, and nothing before it
does. -/
theorem firstFrom_some : ∀ {n lo i : Nat}, firstFrom p lo n = some i →
      lo ≤ i ∧ i < lo + n ∧ p i = true ∧ ∀ j, lo ≤ j → j < i → p j = false
  | n + 1, lo, i, h => by
    rw [firstFrom] at h
    split at h
    case isTrue hp =>
      cases h
      exact ⟨Nat.le_refl _, by omega, hp, fun j h1 h2 => by omega⟩
    case isFalse hp =>
      obtain ⟨h1, h2, h3, h4⟩ := firstFrom_some h
      refine ⟨by omega, by omega, h3, fun j hj hji => ?_⟩
      by_cases he : j = lo
      · subst he; simpa using hp
      · exact h4 j (by omega) hji

theorem firstFrom_none : ∀ {n lo : Nat}, firstFrom p lo n = none → ∀ j, lo ≤ j → j < lo + n → p j = false
  | 0, _, _, j, h1, h2 => by omega
  | n + 1, lo, h, j, h1, h2 => by
    rw [firstFrom] at h
    split at h
    case isTrue => cases h
    case isFalse hp =>
      by_cases he : j = lo
      · subst he; simpa using hp
      · exact firstFrom_none h j (by omega) (by omega)

theorem firstFrom_eq_some :
    ∀ {n lo i : Nat}, lo ≤ i → i < lo + n → p i = true → (∀ j, lo ≤ j → j < i → p j = false) →
      firstFrom p lo n = some i
  | 0, lo, i, h1, h2, _, _ => by omega
  | n + 1, lo, i, h1, h2, hp, hbefore => by
    rw [firstFrom]
    by_cases he : lo = i
    · subst he; rw [if_pos hp]
    · rw [if_neg (by simp [hbefore lo (Nat.le_refl _) (by omega)])]
      exact firstFrom_eq_some (by omega) (by omega) hp fun j hj => hbefore j (by omega)

theorem firstFrom_eq_none {n lo : Nat}
    (h : ∀ j, lo ≤ j → j < lo + n → p j = false) : firstFrom p lo n = none := by
  cases hs : firstFrom p lo n with
  | none => rfl
  | some i =>
    obtain ⟨h1, h2, h3, _⟩ := firstFrom_some hs
    rw [h i h1 h2] at h3
    cases h3

/-! ## Tables -/

variable {m : Nat}

/-- The first index of a table that passes the test. -/
def firstFin (p : Fin m → Bool) : Option (Fin m) :=
  (firstFrom (fun i => if h : i < m then p ⟨i, h⟩ else false) 0 m).bind fun i =>
    if h : i < m then some ⟨i, h⟩ else none

theorem firstFin_some {p : Fin m → Bool} {k : Fin m} (h : firstFin p = some k) : p k = true := by
  obtain ⟨i, hi, hk⟩ := Option.bind_eq_some_iff.mp h
  obtain ⟨_, hlt, hp, _⟩ := firstFrom_some hi
  have him : i < m := by omega
  rw [dif_pos him] at hp hk
  cases hk
  exact hp

theorem firstFin_none {p : Fin m → Bool} (h : firstFin p = none) (k : Fin m) : p k = false := by
  cases hs : firstFrom (fun i => if h : i < m then p ⟨i, h⟩ else false) 0 m with
  | none =>
    have := firstFrom_none hs k.val (Nat.zero_le _) (by omega)
    rwa [dif_pos k.isLt] at this
  | some i =>
    obtain ⟨_, hlt, _, _⟩ := firstFrom_some hs
    have him : i < m := by omega
    rw [firstFin, hs, Option.bind_some, dif_pos him] at h
    cases h

end Scan
