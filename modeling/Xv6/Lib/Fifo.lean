import Xv6.Lib.Table
import Mathlib.Data.List.Basic

/-!
# Circular buffers with free-running counters

A buffer of `cap` cells is used with two 32-bit counters that are never reduced:
`w` counts what was put in and `r` what was taken out, both modulo `2^32`, and
element number `k` lies in cell `k % cap`. `Holds` relates such a buffer to the
whole sequences of the elements that were put in and taken out. The counters may
wrap around any number of times: `cap` divides `2^32`, so a cell is found from the
reduced counter, and the counters never differ by more than `cap`, so that equal
counters mean an empty buffer and counters `cap` apart a full one.
-/

namespace Fifo

open Table

variable {α : Type} {cap : Nat} {data : Nat → α} {r w : UInt32} {put got : List α} {a : α}

structure Holds (cap : Nat) (data : Nat → α) (r w : UInt32) (put got : List α) : Prop where
  taken : got <+: put
  room : put.length ≤ got.length + cap
  read : r = UInt32.ofNat got.length
  written : w = UInt32.ofNat put.length
  cell : ∀ k (h : k < put.length), got.length ≤ k → data (k % cap) = put[k]

/-- The elements in the cells from the reduced counter `i` on. -/
def window (cap : Nat) (data : Nat → α) (i : UInt32) (n : Nat) : List α :=
  (List.range n).map fun j => data ((i + UInt32.ofNat j) % UInt32.ofNat cap).toNat

namespace Holds

theorem length_le (h : Holds cap data r w put got) : got.length ≤ put.length := h.taken.length_le

theorem sub_toNat (h : Holds cap data r w put got) (hcap : cap < 2 ^ 32) :
    (w - r).toNat = put.length - got.length := by
  have hle := h.length_le
  have hroom := h.room
  rw [h.read, h.written, UInt32.toNat_sub, UInt32.toNat_ofNat', UInt32.toNat_ofNat']
  omega

theorem eq_iff (h : Holds cap data r w put got) (hcap : cap < 2 ^ 32) : r = w ↔ got = put := by
  have hsub := h.sub_toNat hcap
  constructor
  · intro he
    rw [he, UInt32.sub_self, UInt32.toNat_zero] at hsub
    exact h.taken.eq_of_length (by have := h.length_le; omega)
  · rintro rfl
    rw [h.read, h.written]

theorem full_iff (h : Holds cap data r w put got) (hcap : cap < 2 ^ 32) :
    w = r + UInt32.ofNat cap ↔ put.length = got.length + cap := by
  have hle := h.length_le
  have hroom := h.room
  rw [h.read, h.written, ← UInt32.toNat_inj, UInt32.toNat_add]
  simp only [UInt32.toNat_ofNat']
  omega

theorem cell_toNat (hcap : cap ∣ 2 ^ 32) (hlt : cap < 2 ^ 32) (n : Nat) :
    (UInt32.ofNat n % UInt32.ofNat cap).toNat = n % cap := by
  rw [UInt32.toNat_mod, UInt32.toNat_ofNat', UInt32.toNat_ofNat', Nat.mod_eq_of_lt hlt,
    Nat.mod_mod_of_dvd n hcap]

theorem put_one (h : Holds cap data r w put got) (hcap : cap ∣ 2 ^ 32) (hlt : cap < 2 ^ 32)
    (hroom : w ≠ r + UInt32.ofNat cap) (a : α) :
    Holds cap (upd data (w % UInt32.ofNat cap).toNat a) r (w + 1) (put ++ [a]) got := by
  have hne := mt (h.full_iff hlt).mpr hroom
  have hle := h.room
  have hcell : (w % UInt32.ofNat cap).toNat = put.length % cap := by
    rw [h.written, cell_toNat hcap hlt]
  refine ⟨h.taken.trans (List.prefix_append put [a]), ?_, h.read, ?_, ?_⟩
  · rw [List.length_append, List.length_singleton]
    omega
  · rw [h.written, List.length_append, List.length_singleton, UInt32.ofNat_add]
    rfl
  · intro k hk hgot
    rw [List.length_append, List.length_singleton] at hk
    rw [hcell]
    rcases Nat.lt_succ_iff_lt_or_eq.mp hk with hk' | rfl
    · -- an older element lies in another cell: the two numbers are less than `cap` apart
      have hother : k % cap ≠ put.length % cap := by
        intro he
        have hd : (put.length - k) % cap = 0 := Nat.sub_mod_eq_zero_of_mod_eq he.symm
        have := Nat.le_of_dvd (by omega) (Nat.dvd_of_mod_eq_zero hd)
        omega
      rw [upd_ne _ _ hother, h.cell k hk' hgot, List.getElem_append_left hk']
    · rw [upd_same, List.getElem_concat_length rfl]

theorem get_one (h : Holds cap data r w put got) (hcap : cap ∣ 2 ^ 32) (hlt : cap < 2 ^ 32)
    (hsome : r ≠ w) : Holds cap data (r + 1) w put (got ++ [data (r % UInt32.ofNat cap).toNat]) := by
  have hne : got ≠ put := mt (h.eq_iff hlt).mpr hsome
  have hlen : got.length < put.length :=
    Nat.lt_of_le_of_ne h.length_le fun he => hne (h.taken.eq_of_length he)
  have hcell : data (r % UInt32.ofNat cap).toNat = put[got.length] := by
    rw [h.read, cell_toNat hcap hlt, h.cell _ hlen (Nat.le_refl _)]
  refine ⟨?_, ?_, ?_, h.written, ?_⟩
  · rw [hcell]
    obtain ⟨rest, rfl⟩ := h.taken
    cases rest with
    | nil => exact absurd (List.append_nil got).symm hne
    | cons b rest => exact ⟨rest, by simp⟩
  · have := h.room
    rw [List.length_append, List.length_singleton]
    omega
  · rw [h.read, List.length_append, List.length_singleton, UInt32.ofNat_add]
    rfl
  · intro k hk hgot
    rw [List.length_append, List.length_singleton] at hgot
    exact h.cell k hk (by omega)

theorem unput (h : Holds cap data r w (put ++ [a]) got) (hgot : got <+: put) :
    Holds cap data r (w - 1) put got := by
  refine ⟨hgot, ?_, h.read, ?_, ?_⟩
  · have := h.room
    rw [List.length_append, List.length_singleton] at this
    omega
  · rw [h.written, List.length_append, List.length_singleton, UInt32.ofNat_add]
    exact UInt32.add_sub_cancel _ _
  · intro k hk hle
    have hcell := h.cell k (by rw [List.length_append]; omega) hle
    rw [hcell, List.getElem_append_left hk]

theorem window_eq {new : List α} (h : Holds cap data r w (put ++ new) got) (hcap : cap ∣ 2 ^ 32)
    (hlt : cap < 2 ^ 32) (hgot : got.length ≤ put.length) :
    window cap data (UInt32.ofNat put.length) new.length = new := by
  refine List.ext_getElem (by simp [window]) fun j h₁ h₂ => ?_
  have hlen : put.length + j < (put ++ new).length := by
    rw [List.length_append]
    omega
  have hcell := h.cell (put.length + j) hlen (by omega)
  simp only [window, List.getElem_map, List.getElem_range]
  rw [← UInt32.ofNat_add, cell_toNat hcap hlt, hcell, List.getElem_append_right (Nat.le_add_right _ _)]
  simp

theorem init (data : Nat → α) : Holds cap data 0 0 [] [] :=
  ⟨List.prefix_refl _, Nat.zero_le _, rfl, rfl, fun k hk => absurd hk (Nat.not_lt_zero k)⟩

end Holds

end Fifo
