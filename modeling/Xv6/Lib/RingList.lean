import Xv6.Lib.Table
import Mathlib.Data.Finset.Card
import Mathlib.Order.Defs.LinearOrder

/-!
# Rings of pointers

A circular list kept in order: each element of a finite set points to the least one
above it, and the greatest points back to the least, `b`. So the list is a single
cycle with one wrap. `scan` follows the pointers up to an element at which a test
succeeds. It reaches one from every element of the ring, when there is one.
-/

namespace RingList

open Table

variable {α : Type} [LinearOrder α] {F : Finset α} {b p t x : α} {next next' : α → α}

/-- The elements of `F` in a ring through `b`. -/
structure Ringed (F : Finset α) (b : α) (next : α → α) : Prop where
  base : b ∈ F
  least : ∀ x ∈ F, b ≤ x
  mem : ∀ x ∈ F, next x ∈ F
  up : ∀ x ∈ F, x < next x → ∀ y ∈ F, x < y → next x ≤ y
  wrap : ∀ x ∈ F, ¬ x < next x → next x = b ∧ ∀ y ∈ F, y ≤ x

/-- Follow the pointers to an element at which `stop` holds. -/
def scan (stop : α → Bool) (next : α → α) : Nat → α → Option α
  | 0, _ => none
  | n + 1, p => if stop p then some p else scan stop next n (next p)

namespace Ringed

theorem single (b : α) (h : next b = b) : Ringed {b} b next where
  base := Finset.mem_singleton_self b
  least x hx := (Finset.mem_singleton.mp hx).ge
  mem x hx := by
    rw [Finset.mem_singleton] at hx ⊢
    rw [hx, h]
  up x hx hlt := by
    rw [Finset.mem_singleton.mp hx, h] at hlt
    exact absurd hlt (lt_irrefl b)
  wrap x hx _ := by
    rw [Finset.mem_singleton] at hx
    refine ⟨by rw [hx, h], fun y hy => ?_⟩
    rw [Finset.mem_singleton.mp hy, hx]

theorem congr (h : Ringed F b next) (he : ∀ x ∈ F, next' x = next x) : Ringed F b next' where
  base := h.base
  least := h.least
  mem x hx := by
    rw [he x hx]
    exact h.mem x hx
  up x hx := by
    rw [he x hx]
    exact h.up x hx
  wrap x hx := by
    rw [he x hx]
    exact h.wrap x hx

theorem le_of_lt (h : Ringed F b next) (hp : p ∈ F) (hx : x ∈ F) (hlt : p < x) :
    p < next p ∧ next p ≤ x := by
  by_cases hup : p < next p
  · exact ⟨hup, h.up p hp hup x hx hlt⟩
  · exact absurd hlt (not_lt.mpr ((h.wrap p hp hup).2 x hx))

theorem insert (h : Ringed F b next) (hp : p ∈ F) (hlt : p < x) (hgap : ∀ y ∈ F, p < y → x < y) :
    Ringed (Insert.insert x F) b (upd (upd next x (next p)) p x) := by
  have hx : x ∉ F := fun hx => lt_irrefl x (hgap x hx hlt)
  have hpx : p ≠ x := hlt.ne
  have hold : ∀ y ∈ F, y ≠ p → upd (upd next x (next p)) p x y = next y := by
    intro y hy hne
    have hyx : y ≠ x := fun hc => hx (hc ▸ hy)
    rw [upd_ne _ _ hne, upd_ne _ _ hyx]
  have hnew : upd (upd next x (next p)) p x x = next p := by rw [upd_ne _ _ hpx.symm, upd_same]
  refine ⟨Finset.mem_insert_of_mem h.base, fun y hy => ?_, fun y hy => ?_, fun y hy hup z hz hyz => ?_,
    fun y hy hup => ?_⟩
  · rcases Finset.mem_insert.mp hy with rfl | hyF
    · exact (h.least p hp).trans hlt.le
    · exact h.least y hyF
  · rcases Finset.mem_insert.mp hy with rfl | hyF
    · rw [hnew]
      exact Finset.mem_insert_of_mem (h.mem p hp)
    · by_cases hyp : y = p
      · rw [hyp, upd_same]
        exact Finset.mem_insert_self x F
      · rw [hold y hyF hyp]
        exact Finset.mem_insert_of_mem (h.mem y hyF)
  · rcases Finset.mem_insert.mp hy with rfl | hyF
    · -- from the new element
      rw [hnew] at hup ⊢
      rcases Finset.mem_insert.mp hz with rfl | hzF
      · exact absurd hyz (lt_irrefl z)
      · exact (h.le_of_lt hp hzF (hlt.trans hyz)).2
    · by_cases hyp : y = p
      · rw [hyp, upd_same]
        rcases Finset.mem_insert.mp hz with rfl | hzF
        · exact le_rfl
        · exact (hgap z hzF (hyp ▸ hyz)).le
      · rw [hold y hyF hyp] at hup ⊢
        rcases Finset.mem_insert.mp hz with rfl | hzF
        · -- an element below the new one is below `p`
          have hyp' : y < p := by
            refine lt_of_le_of_ne (not_lt.mp fun hc => ?_) hyp
            exact lt_irrefl y (hyz.trans (hgap y hyF hc))
          exact (h.up y hyF hup p hp hyp').trans hlt.le
        · exact h.up y hyF hup z hzF hyz
  · rcases Finset.mem_insert.mp hy with rfl | hyF
    · rw [hnew] at hup ⊢
      have hwrap : ¬ p < next p := fun hc => hup (hgap _ (h.mem p hp) hc)
      obtain ⟨hb, hmax⟩ := h.wrap p hp hwrap
      refine ⟨hb, fun z hz => ?_⟩
      rcases Finset.mem_insert.mp hz with rfl | hzF
      · exact le_rfl
      · exact (hmax z hzF).trans hlt.le
    · by_cases hyp : y = p
      · rw [hyp, upd_same] at hup
        exact absurd hlt hup
      · rw [hold y hyF hyp] at hup ⊢
        obtain ⟨hb, hmax⟩ := h.wrap y hyF hup
        refine ⟨hb, fun z hz => ?_⟩
        rcases Finset.mem_insert.mp hz with rfl | hzF
        · refine (hgap y hyF ?_).le
          exact lt_of_le_of_ne (hmax p hp) (Ne.symm hyp)
        · exact hmax z hzF

theorem erase (h : Ringed F b next) (hp : p ∈ F) (hne : next p ≠ b) :
    Ringed (F.erase (next p)) b (upd next p (next (next p))) := by
  have hup : p < next p := by
    by_contra hc
    exact hne (h.wrap p hp hc).1
  have hmem := h.mem p hp
  have hold : ∀ y, y ≠ p → upd next p (next (next p)) y = next y := fun y hy => upd_ne _ _ hy
  -- no other element points to the one that goes
  have hinto : ∀ y ∈ F, y ≠ p → next y ≠ next p := by
    intro y hy hyp heq
    rcases lt_or_gt_of_ne hyp with hlt | hgt
    · have := (h.le_of_lt hy hp hlt).2
      rw [heq] at this
      exact absurd hup (not_lt.mpr this)
    · have h₁ := (h.le_of_lt hp hy hgt).2
      by_cases hy' : y < next y
      · rw [heq] at hy'
        exact absurd hy' (not_lt.mpr h₁)
      · exact hne (heq ▸ (h.wrap y hy hy').1)
  have hnext : next (next p) ≠ next p := by
    intro hc
    have hw := h.wrap _ hmem (by rw [hc]; exact lt_irrefl _)
    exact hne (hc ▸ hw.1)
  refine ⟨Finset.mem_erase.mpr ⟨hne.symm, h.base⟩, fun y hy => h.least y (Finset.mem_of_mem_erase hy),
    fun y hy => ?_, fun y hy hlt z hz hyz => ?_, fun y hy hnot => ?_⟩
  · obtain ⟨-, hy⟩ := Finset.mem_erase.mp hy
    by_cases hyp : y = p
    · rw [hyp, upd_same]
      exact Finset.mem_erase.mpr ⟨hnext, h.mem _ hmem⟩
    · rw [hold y hyp]
      exact Finset.mem_erase.mpr ⟨hinto y hy hyp, h.mem y hy⟩
  · obtain ⟨-, hy⟩ := Finset.mem_erase.mp hy
    obtain ⟨hzne, hz⟩ := Finset.mem_erase.mp hz
    by_cases hyp : y = p
    · rw [hyp, upd_same]
      rw [hyp] at hyz
      have hle := (h.le_of_lt hp hz hyz).2
      exact (h.le_of_lt hmem hz (lt_of_le_of_ne hle (Ne.symm hzne))).2
    · rw [hold y hyp] at hlt ⊢
      exact h.up y hy hlt z hz hyz
  · obtain ⟨hyne, hy⟩ := Finset.mem_erase.mp hy
    by_cases hyp : y = p
    · rw [hyp, upd_same] at hnot ⊢
      have hwrap : ¬ next p < next (next p) := fun hc => hnot (hup.trans hc)
      obtain ⟨hb, hmax⟩ := h.wrap _ hmem hwrap
      refine ⟨hb, fun z hz => ?_⟩
      obtain ⟨hzne, hz⟩ := Finset.mem_erase.mp hz
      by_contra hc
      have hle := (h.le_of_lt hp hz (not_le.mp hc)).2
      exact hzne (le_antisymm (hmax z hz) hle)
    · rw [hold y hyp] at hnot ⊢
      obtain ⟨hb, hmax⟩ := h.wrap y hy hnot
      exact ⟨hb, fun z hz => hmax z (Finset.mem_of_mem_erase hz)⟩

/-! ## Scanning -/

/-- The steps from `p` to `t`, counted with those after the wrap twice. -/
def ahead (F : Finset α) (t p : α) : Nat :=
  if p ≤ t then (F.filter fun x => p ≤ x ∧ x < t).card
  else F.card + (F.filter fun x => p ≤ x).card

theorem ahead_le (F : Finset α) (t p : α) : ahead F t p ≤ 2 * F.card := by
  unfold ahead
  split
  · exact (Finset.card_filter_le _ _).trans (by omega)
  · have := Finset.card_filter_le F fun x => p ≤ x
    omega

theorem ahead_next (h : Ringed F b next) (hp : p ∈ F) (ht : t ∈ F) (hne : p ≠ t) :
    ahead F t (next p) < ahead F t p := by
  rcases lt_or_gt_of_ne hne with hlt | hgt
  · obtain ⟨hup, hle⟩ := h.le_of_lt hp ht hlt
    rw [ahead, ahead, if_pos hle, if_pos hlt.le]
    refine Finset.card_lt_card (Finset.ssubset_iff_subset_ne.mpr ⟨fun x hx => ?_, fun heq => ?_⟩)
    · rw [Finset.mem_filter] at hx ⊢
      exact ⟨hx.1, hup.le.trans hx.2.1, hx.2.2⟩
    · have hmem : p ∈ F.filter fun x => next p ≤ x ∧ x < t := by
        rw [heq, Finset.mem_filter]
        exact ⟨hp, le_rfl, hlt⟩
      exact absurd (Finset.mem_filter.mp hmem).2.1 (not_le.mpr hup)
  · have hpos : 0 < (F.filter fun x => p ≤ x).card :=
      Finset.card_pos.mpr ⟨p, Finset.mem_filter.mpr ⟨hp, le_rfl⟩⟩
    rw [ahead, ahead, if_neg (not_le.mpr hgt)]
    by_cases hup : p < next p
    · rw [if_neg (not_le.mpr (hgt.trans hup))]
      refine Nat.add_lt_add_left (Finset.card_lt_card
        (Finset.ssubset_iff_subset_ne.mpr ⟨fun x hx => ?_, fun heq => ?_⟩)) _
      · rw [Finset.mem_filter] at hx ⊢
        exact ⟨hx.1, hup.le.trans hx.2⟩
      · have hmem : p ∈ F.filter fun x => next p ≤ x := by
          rw [heq, Finset.mem_filter]
          exact ⟨hp, le_rfl⟩
        exact absurd (Finset.mem_filter.mp hmem).2 (not_le.mpr hup)
    · rw [(h.wrap p hp hup).1, if_pos (h.least t ht)]
      have := Finset.card_filter_le F fun x => b ≤ x ∧ x < t
      omega

theorem scan_some (h : Ringed F b next) {stop : α → Bool} (ht : t ∈ F) (hstop : stop t = true) :
    ∀ (n : Nat) (p : α), p ∈ F → ahead F t p < n → ∃ q ∈ F, scan stop next n p = some q ∧ stop q = true
  | 0, _, _, hn => absurd hn (Nat.not_lt_zero _)
  | n + 1, p, hp, hn => by
    rw [scan]
    by_cases hs : stop p = true
    · rw [if_pos hs]
      exact ⟨p, hp, rfl, hs⟩
    · rw [if_neg hs]
      have hne : p ≠ t := by
        rintro rfl
        exact hs hstop
      have hlt := h.ahead_next hp ht hne
      exact h.scan_some ht hstop n (next p) (h.mem p hp) (by omega)

theorem reaches (h : Ringed F b next) (ht : t ∈ F) :
    ∀ (n : Nat) (p : α), p ∈ F → ahead F t p < n → ∃ k < n, next^[k] p = t
  | 0, _, _, hn => absurd hn (Nat.not_lt_zero _)
  | n + 1, p, hp, hn => by
    by_cases hne : p = t
    · exact ⟨0, Nat.succ_pos n, hne⟩
    · have hlt := h.ahead_next hp ht hne
      obtain ⟨k, hk, he⟩ := h.reaches ht n (next p) (h.mem p hp) (by omega)
      exact ⟨k + 1, Nat.succ_lt_succ hk, he⟩

theorem exists_pred (h : Ringed F b next) (ht : t ∈ F) : ∃ p ∈ F, next p = t := by
  obtain ⟨k, -, hk⟩ := h.reaches ht _ (next t) (h.mem t ht) (Nat.lt_succ_self _)
  have hmem : ∀ k, next^[k] t ∈ F := by
    intro k
    induction k with
    | zero => exact ht
    | succ k ih =>
      rw [Function.iterate_succ_apply']
      exact h.mem _ ih
  refine ⟨next^[k] t, hmem k, ?_⟩
  rw [← Function.iterate_succ_apply' next, Function.iterate_succ_apply]
  exact hk

end Ringed

end RingList
