import Mathlib.Tactic.Common
import Xv6.Lib.Table

/-!
# Moving memory

`memmove` of the kernel (`string.c`) and of the user library (`ulib.c`), over memory
with 32-bit addresses that wrap around. The kernel's copies downwards if the
destination begins inside the source; the library's always copies upwards.

`moved` is the copy through a temporary. Each loop computes it if no byte of the
source is overwritten before it is read, and for a loop that is a condition on the
distance of the two ranges alone.
-/

namespace Xv6.Str

open Table

abbrev Addr : Type := BitVec 32

abbrev Memory : Type := Addr → UInt8

/-! ## The two functions -/

/-- `while(n-- > 0) *d++ = *s++;` -/
def copyUp : Nat → Addr → Addr → Memory → Memory
  | 0, _, _, m => m
  | n + 1, d, s, m => copyUp n (d + 1) (s + 1) (upd m d (m s))

/-- `while(n-- > 0) *--d = *--s;` -/
def copyDown : Nat → Addr → Addr → Memory → Memory
  | 0, _, _, m => m
  | n + 1, d, s, m => copyDown n (d - 1) (s - 1) (upd m (d - 1) (m (s - 1)))

/-- `memmove` of the kernel, with what it returns. -/
def memmove (m : Memory) (dst src n : BitVec 32) : Addr × Memory :=
  if src < dst ∧ src + n > dst then (dst, copyDown n.toNat (dst + n) (src + n) m)
  else (dst, copyUp n.toNat dst src m)

/-- It exists to placate GCC. -/
def memcpy (m : Memory) (dst src n : BitVec 32) : Addr × Memory := memmove m dst src n

/-- `memmove` of the user library, where `n` is an `int`. -/
def Ulib.memmove (m : Memory) (vdst vsrc n : BitVec 32) : Addr × Memory :=
  (vdst, copyUp n.toInt.toNat vdst vsrc m)

/-! ## Copying through a temporary -/

/-- The memory with `n` bytes at `d` replaced by those that are at `s`. -/
def moved (m : Memory) (d s : Addr) (n : Nat) : Memory := fun a =>
  if (a - d).toNat < n then m (s + (a - d)) else m a

theorem moved_add (m : Memory) (d s k : Addr) (n : Nat) :
    moved m d s n (d + k) = if k.toNat < n then m (s + k) else m (d + k) := by
  rw [moved, show d + k - d = k by grind]

theorem moved_zero (m : Memory) (d s : Addr) : moved m d s 0 = m :=
  funext fun _ => if_neg (Nat.not_lt_zero _)

theorem copyUp_eq : ∀ {n : Nat} {d s : Addr} (m : Memory), d = s ∨ n ≤ (d - s).toNat →
    n ≤ 2 ^ 32 → copyUp n d s m = moved m d s n
  | 0, d, s, m, _, _ => (moved_zero m d s).symm
  | n + 1, d, s, m, h, hn => by
    have hdist : d + 1 - (s + 1) = d - s := by grind
    rw [copyUp, copyUp_eq _ (by rw [hdist]; grind) (by omega)]
    funext a
    obtain ⟨k, rfl⟩ : ∃ k, a = d + 1 + k := ⟨a - (d + 1), by grind⟩
    have hoff : d + 1 + k = d + (k + 1) := by grind
    rw [moved_add, hoff, moved_add, show s + 1 + k = s + (k + 1) by grind]
    -- the last byte of this range is the one before `d + 1`
    by_cases hk : k + 1 = 0
    · have hmax : k.toNat = 2 ^ 32 - 1 := by bv_omega
      rw [hk, if_neg (by omega), if_pos (by simp)]
      simp
    · have hlt : (k + 1).toNat = k.toNat + 1 := by bv_omega
      have hread : k.toNat < n → s + (k + 1) ≠ d := by
        intro hkn he
        have hks : k + 1 = d - s := by grind
        rw [← hks, hlt] at h
        rcases h with rfl | h
        · exact hk (by grind)
        · omega
      have hne : d + (k + 1) ≠ d := fun he => hk (by grind)
      rw [hlt, upd_ne _ _ hne]
      by_cases hkn : k.toNat < n
      · rw [if_pos hkn, if_pos (by omega), upd_ne _ _ (hread hkn)]
      · rw [if_neg hkn, if_neg (by omega)]

theorem copyDown_eq : ∀ {n : Nat} {d s : Addr} (m : Memory), s = d ∨ n ≤ (s - d).toNat →
    n ≤ 2 ^ 32 → copyDown n (d + BitVec.ofNat 32 n) (s + BitVec.ofNat 32 n) m = moved m d s n
  | 0, d, s, m, _, _ => (moved_zero m d s).symm
  | n + 1, d, s, m, h, hn => by
    have hend : ∀ x : Addr, x + BitVec.ofNat 32 (n + 1) - 1 = x + BitVec.ofNat 32 n := by
      intro x
      rw [BitVec.ofNat_add]
      grind
    rw [copyDown, hend, hend, copyDown_eq _ (by grind) (by omega)]
    funext a
    obtain ⟨k, rfl⟩ : ∃ k, a = d + k := ⟨a - d, by grind⟩
    rw [moved_add, moved_add]
    by_cases hkn : k.toNat < n
    · have hread : s + k ≠ d + BitVec.ofNat 32 n := by
        intro he
        have hsd : s - d = BitVec.ofNat 32 n - k := by grind
        have hlt : (BitVec.ofNat 32 n - k).toNat = n - k.toNat := by bv_omega
        rw [hsd, hlt] at h
        rcases h with rfl | h
        · bv_omega
        · omega
      rw [if_pos hkn, if_pos (by omega), upd_ne _ _ hread]
    · rw [if_neg hkn]
      by_cases hk : k = BitVec.ofNat 32 n
      · rw [hk, upd_same, if_pos (by bv_omega)]
      · rw [upd_ne _ _ fun he => hk (by grind), if_neg (by bv_omega)]

/-! ## The kernel's -/

variable {m : Memory} {dst src n : BitVec 32}

theorem memmove_eq (hd : dst.toNat + n.toNat ≤ 2 ^ 32) (hs : src.toNat + n.toNat ≤ 2 ^ 32) :
    memmove m dst src n = (dst, moved m dst src n.toNat) := by
  have hn : n.toNat ≤ 2 ^ 32 := by omega
  unfold memmove
  split
  case isTrue h =>
    have := copyDown_eq m (d := dst) (s := src) (.inr (by bv_omega)) hn
    rw [BitVec.ofNat_toNat, BitVec.setWidth_eq] at this
    rw [this]
  case isFalse h => rw [copyUp_eq m (by bv_omega) hn]

/-- It copies as if through a temporary. -/
theorem memmove_copies (hd : dst.toNat + n.toNat ≤ 2 ^ 32) (hs : src.toNat + n.toNat ≤ 2 ^ 32) :
    (∀ i < n, (memmove m dst src n).2 (dst + i) = m (src + i)) ∧
      ∀ a, ¬ (dst.toNat ≤ a.toNat ∧ a.toNat < dst.toNat + n.toNat) → (memmove m dst src n).2 a = m a := by
  rw [memmove_eq hd hs]
  dsimp only
  refine ⟨fun i hi => ?_, fun a ha => ?_⟩
  · rw [moved_add, if_pos (BitVec.lt_def.mp hi)]
  · rw [moved, if_neg (by bv_omega)]

/-- Three bytes move up by one, in place. -/
theorem memmove_copies_up : (memmove (fun a => UInt8.ofNat a.toNat) 1 0 3).2 (1 + 2) = 2 :=
  (memmove_copies (by decide) (by decide)).1 2 (by decide)

/-! ## The library's -/

end Xv6.Str
