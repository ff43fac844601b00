import Xv6.Lib.Table
import Mathlib.Algebra.BigOperators.Group.Finset.Basic
import Mathlib.Algebra.Order.BigOperators.Group.Finset

/-!
# Blocks of memory

A finite set of blocks: block `x` is the `len x` units of `w` bytes from address `x`
on. `Tiles` says that they do not overlap, that they lie in the memory `M`, and that
they have `n` units together. It is kept when a block is added in fresh memory, when
two blocks that touch become one, and when one is cut in two. A block may be empty.
-/

namespace Blocks

open Table

variable {w n : Nat} {S : Finset Nat} {len len' : Nat → Nat} {M M' : Nat → Prop} {x y a k : Nat}

/-- Blocks apart from each other, in the memory `M`, with `n` units. -/
structure Tiles (w : Nat) (S : Finset Nat) (len : Nat → Nat) (M : Nat → Prop) (n : Nat) : Prop where
  apart : ∀ x ∈ S, ∀ y ∈ S, x < y → x + w * len x ≤ y
  inside : ∀ x ∈ S, ∀ c, x ≤ c → c < x + w * len x → M c
  total : ∑ x ∈ S, len x = n

namespace Tiles

section

variable (h : Tiles w S len M n)

include h

theorem congr (he : ∀ x ∈ S, len' x = len x) : Tiles w S len' M n where
  apart x hx := by
    rw [he x hx]
    exact h.apart x hx
  inside x hx := by
    rw [he x hx]
    exact h.inside x hx
  total := by rw [Finset.sum_congr rfl he, h.total]

theorem start (hw : 0 < w) (hx : x ∈ S) (hpos : 0 < len x) : M x :=
  h.inside x hx x (Nat.le_refl x) (Nat.lt_add_of_pos_right (Nat.mul_pos hw hpos))

theorem notMem (hx : x ∈ S) (h₁ : x < a) (h₂ : a < x + w * len x) : a ∉ S :=
  fun ha => absurd (h.apart x hx a ha h₁) (Nat.not_le.mpr h₂)

theorem add (hw : 0 < w) (hk : 0 < k)
    (hfresh : ∀ c, a ≤ c → c < a + w * k → ¬ M c) (hpos : ∀ x ∈ S, a ≤ x → 0 < len x)
    (hM : ∀ c, M c → M' c) (hnew : ∀ c, a ≤ c → c < a + w * k → M' c) :
    Tiles w (insert a S) (upd len a k) M' (n + k) := by
  have hpos' : 0 < w * k := Nat.mul_pos hw hk
  have ha : a ∉ S := fun ha =>
    hfresh a (Nat.le_refl a) (by omega) (h.start hw ha (hpos a ha (Nat.le_refl a)))
  have hold : ∀ x ∈ S, upd len a k x = len x := fun x hx => upd_ne _ _ fun hc => ha (hc ▸ hx)
  refine ⟨fun x hx y hy hlt => ?_, fun x hx c h₁ h₂ => ?_, ?_⟩
  · rcases Finset.mem_insert.mp hx with rfl | hxS
    · rcases Finset.mem_insert.mp hy with rfl | hyS
      · exact absurd hlt (Nat.lt_irrefl y)
      · rw [upd_same]
        by_contra hc
        exact hfresh y (by omega) (by omega) (h.start hw hyS (hpos y hyS (by omega)))
    · rw [hold x hxS]
      rcases Finset.mem_insert.mp hy with rfl | hyS
      · by_contra hc
        exact hfresh y (Nat.le_refl y) (by omega) (h.inside x hxS y (by omega) (by omega))
      · exact h.apart x hxS y hyS hlt
  · rcases Finset.mem_insert.mp hx with rfl | hxS
    · rw [upd_same] at h₂
      exact hnew c h₁ h₂
    · rw [hold x hxS] at h₂
      exact hM c (h.inside x hxS c h₁ h₂)
  · rw [Finset.sum_insert ha, upd_same, Finset.sum_congr rfl hold, h.total, Nat.add_comm]

theorem merge (hx : x ∈ S) (hy : y ∈ S) (hne : x ≠ y)
    (hadj : x + w * len x = y) : Tiles w (S.erase y) (upd len x (len x + len y)) M n := by
  have hlt : x < y := by omega
  have hend : x + w * (len x + len y) = y + w * len y := by rw [Nat.mul_add]; omega
  have hold : ∀ z, z ≠ x → upd len x (len x + len y) z = len z := fun z hz => upd_ne _ _ hz
  refine ⟨fun u hu v hv huv => ?_, fun u hu c h₁ h₂ => ?_, ?_⟩
  · obtain ⟨huy, hu⟩ := Finset.mem_erase.mp hu
    obtain ⟨hvy, hv⟩ := Finset.mem_erase.mp hv
    by_cases hux : u = x
    · subst hux
      rw [upd_same, hend]
      have h₁ := h.apart u hx v hv huv
      exact h.apart y hy v hv (by omega)
    · rw [hold u hux]
      exact h.apart u hu v hv huv
  · obtain ⟨-, hu⟩ := Finset.mem_erase.mp hu
    by_cases hux : u = x
    · subst hux
      rw [upd_same, hend] at h₂
      by_cases hc : c < y
      · exact h.inside u hx c h₁ (by omega)
      · exact h.inside y hy c (by omega) h₂
    · rw [hold u hux] at h₂
      exact h.inside u hu c h₁ h₂
  · have hmem : x ∈ S.erase y := Finset.mem_erase.mpr ⟨hne, hx⟩
    have hrest : ∑ z ∈ (S.erase y).erase x, upd len x (len x + len y) z =
        ∑ z ∈ (S.erase y).erase x, len z :=
      Finset.sum_congr rfl fun z hz => hold z (Finset.ne_of_mem_erase hz)
    rw [← Finset.add_sum_erase _ _ hmem, hrest, upd_same, ← h.total, ← Finset.add_sum_erase _ _ hy,
      ← Finset.add_sum_erase _ _ hmem]
    omega

theorem split (hw : 0 < w) (hx : x ∈ S) (hk : 0 < k) (hlt : k < len x) :
    Tiles w (insert (x + w * (len x - k)) S) (upd (upd len x (len x - k)) (x + w * (len x - k)) k) M n := by
  obtain ⟨j, hj⟩ : ∃ j, len x = j + k := ⟨len x - k, by omega⟩
  have hjk : len x - k = j := by omega
  rw [hjk]
  have hjpos : 0 < w * j := Nat.mul_pos hw (by omega)
  have hkpos : 0 < w * k := Nat.mul_pos hw hk
  have hlen : w * len x = w * j + w * k := by rw [hj, Nat.mul_add]
  have ha : x + w * j ∉ S := h.notMem hx (by omega) (by omega)
  have hxa : x ≠ x + w * j := by omega
  have hlenx : upd (upd len x j) (x + w * j) k x = j := by rw [upd_ne _ _ hxa, upd_same]
  have hold : ∀ z ∈ S, z ≠ x → upd (upd len x j) (x + w * j) k z = len z := by
    intro z hz hzx
    have hza : z ≠ x + w * j := fun hc => ha (hc ▸ hz)
    rw [upd_ne _ _ hza, upd_ne _ _ hzx]
  refine ⟨fun u hu v hv huv => ?_, fun u hu c h₁ h₂ => ?_, ?_⟩
  · rcases Finset.mem_insert.mp hu with rfl | hu
    · rw [upd_same]
      rcases Finset.mem_insert.mp hv with rfl | hv
      · exact absurd huv (Nat.lt_irrefl _)
      · have := h.apart x hx v hv (by omega)
        omega
    · by_cases hux : u = x
      · subst hux
        rw [hlenx]
        rcases Finset.mem_insert.mp hv with rfl | hv
        · exact Nat.le_refl _
        · have := h.apart u hx v hv huv
          omega
      · rw [hold u hu hux]
        rcases Finset.mem_insert.mp hv with rfl | hv
        · -- a block below the cut is below the block that is cut
          have hux' : u < x := by
            by_contra hc
            have := h.apart x hx u hu (by omega)
            omega
          have := h.apart u hu x hx hux'
          omega
        · exact h.apart u hu v hv huv
  · rcases Finset.mem_insert.mp hu with rfl | hu
    · rw [upd_same] at h₂
      exact h.inside x hx c (by omega) (by omega)
    · by_cases hux : u = x
      · subst hux
        rw [hlenx] at h₂
        exact h.inside u hx c h₁ (by omega)
      · rw [hold u hu hux] at h₂
        exact h.inside u hu c h₁ h₂
  · have hrest : ∑ z ∈ S.erase x, upd (upd len x j) (x + w * j) k z = ∑ z ∈ S.erase x, len z :=
      Finset.sum_congr rfl fun z hz => hold z (Finset.mem_of_mem_erase hz) (Finset.ne_of_mem_erase hz)
    rw [Finset.sum_insert ha, ← Finset.add_sum_erase _ _ hx, hrest, upd_same, hlenx, ← h.total,
      ← Finset.add_sum_erase _ _ hx, hj]
    omega

theorem card_le {F : Finset Nat} (hF : F ⊆ S) {b : Nat}
    (hpos : ∀ x ∈ F, x ≠ b → 0 < len x) : F.card ≤ n + 1 := by
  have h₁ : (F.erase b).card ≤ ∑ x ∈ F.erase b, len x := by
    rw [Finset.card_eq_sum_ones]
    exact Finset.sum_le_sum fun x hx =>
      hpos x (Finset.mem_of_mem_erase hx) (Finset.ne_of_mem_erase hx)
  have h₂ : ∑ x ∈ F.erase b, len x ≤ ∑ x ∈ S, len x :=
    Finset.sum_le_sum_of_subset ((Finset.erase_subset b F).trans hF)
  have h₃ := Finset.pred_card_le_card_erase (s := F) (a := b)
  have h₄ := h.total
  omega

end

end Tiles

end Blocks
