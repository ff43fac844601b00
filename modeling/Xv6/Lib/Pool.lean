import Mathlib.Data.Set.Insert

/-!
# Exact ownership of a pool

A pool hands out numbered resources. Each place of a structure holds at most
one of them: `own p` is its number, and zero if the place is empty. `used` is
what the allocator has marked, and `spare` are the resources that are marked and
not yet, or no longer, in a place.

`Exact` says that a resource is marked exactly if it is in a place or spare, and
that no resource is in two places or both in a place and spare.
-/

namespace Pool

variable {ι : Type} {own own' : ι → Nat} {used used' : Nat → Prop} {spare : Set Nat} {b : Nat}

structure Exact (own : ι → Nat) (used : Nat → Prop) (spare : Set Nat) : Prop where
  /-- A resource is in one place. -/
  inj : ∀ p q, own p = own q → own p ≠ 0 → p = q
  spare_ne_zero : ∀ b ∈ spare, b ≠ 0
  /-- A spare resource is in no place. -/
  own_ne_spare : ∀ b ∈ spare, ∀ p, own p ≠ b
  /-- Exactly the resources in a place and the spare ones are marked. -/
  used_iff : ∀ b, b ≠ 0 → (used b ↔ (∃ p, own p = b) ∨ b ∈ spare)

namespace Exact

theorem used_own (h : Exact own used spare) {p : ι} (hp : own p ≠ 0) : used (own p) :=
  (h.used_iff _ hp).mpr (.inl ⟨p, rfl⟩)

theorem used_spare (h : Exact own used spare) (hb : b ∈ spare) : used b :=
  (h.used_iff b (h.spare_ne_zero b hb)).mpr (.inr hb)

theorem own_ne_of_not_used (h : Exact own used spare) (hb : ¬ used b) (p : ι) (h0 : b ≠ 0) :
    own p ≠ b := fun hp => hb ((h.used_iff b h0).mpr (.inl ⟨p, hp⟩))

theorem alloc (h : Exact own used spare) (hb : ¬ used b) (h0 : b ≠ 0)
    (hu : ∀ c, used' c ↔ used c ∨ c = b) : Exact own used' (insert b spare) where
  inj := h.inj
  spare_ne_zero := by
    rintro c (rfl | hc)
    · exact h0
    · exact h.spare_ne_zero c hc
  own_ne_spare := by
    rintro c (rfl | hc) p
    · exact h.own_ne_of_not_used hb p h0
    · exact h.own_ne_spare c hc p
  used_iff := by
    intro c hc
    rw [hu, h.used_iff c hc, Set.mem_insert_iff, or_assoc, or_comm (a := c ∈ spare)]

theorem free (h : Exact own used spare) (hb : b ∈ spare) (hu : ∀ c, used' c ↔ used c ∧ c ≠ b) :
    Exact own used' (spare \ {b}) where
  inj := h.inj
  spare_ne_zero := fun c hc => h.spare_ne_zero c hc.1
  own_ne_spare := fun c hc p => h.own_ne_spare c hc.1 p
  used_iff := by
    intro c hc
    rw [hu, h.used_iff c hc, Set.mem_sdiff, Set.mem_singleton_iff]
    constructor
    · rintro ⟨hp | hs, hne⟩
      · exact .inl hp
      · exact .inr ⟨hs, hne⟩
    · rintro (⟨p, rfl⟩ | ⟨hs, hne⟩)
      · exact ⟨.inl ⟨p, rfl⟩, h.own_ne_spare b hb p⟩
      · exact ⟨.inr hs, hne⟩

theorem assign (h : Exact own used spare) {p : ι} (hp : own p = 0) (hb : b ∈ spare)
    (hown : own' p = b) (hrest : ∀ q, q ≠ p → own' q = own q) :
    Exact own' used (spare \ {b}) where
  inj := by
    intro q r hqr hq
    by_cases h1 : q = p <;> by_cases h2 : r = p
    · rw [h1, h2]
    · subst h1
      rw [hown, hrest r h2] at hqr
      exact absurd hqr.symm (h.own_ne_spare b hb r)
    · subst h2
      rw [hown, hrest q h1] at hqr
      exact absurd hqr (h.own_ne_spare b hb q)
    · rw [hrest q h1] at hq hqr
      rw [hrest r h2] at hqr
      exact h.inj q r hqr hq
  spare_ne_zero := fun c hc => h.spare_ne_zero c hc.1
  own_ne_spare := by
    intro c hc q
    by_cases h1 : q = p
    · subst h1
      rw [hown]
      exact fun he => hc.2 he.symm
    · rw [hrest q h1]
      exact h.own_ne_spare c hc.1 q
  used_iff := by
    intro c hc
    rw [h.used_iff c hc]
    constructor
    · rintro (⟨q, rfl⟩ | hs)
      · by_cases h1 : q = p
        · subst h1
          exact absurd hp hc
        · exact .inl ⟨q, hrest q h1⟩
      · by_cases h1 : c = b
        · exact .inl ⟨p, by rw [hown, h1]⟩
        · exact .inr ⟨hs, h1⟩
    · rintro (⟨q, rfl⟩ | hs)
      · by_cases h1 : q = p
        · subst h1
          rw [hown]
          exact .inr hb
        · exact .inl ⟨q, (hrest q h1).symm⟩
      · exact .inr hs.1

theorem release (h : Exact own used spare) (S : Set ι) (hin : ∀ p ∈ S, own' p = 0)
    (hout : ∀ p, p ∉ S → own' p = own p) :
    Exact own' used (spare ∪ {b | b ≠ 0 ∧ ∃ p ∈ S, own p = b}) where
  inj := by
    intro p q hpq hp
    have h1 : p ∉ S := fun hS => hp (hin p hS)
    have h2 : q ∉ S := fun hS => hp (by rw [hpq, hin q hS])
    rw [hout p h1] at hpq hp
    rw [hout q h2] at hpq
    exact h.inj p q hpq hp
  spare_ne_zero := by
    rintro c (hc | hc)
    · exact h.spare_ne_zero c hc
    · exact hc.1
  own_ne_spare := by
    rintro c (hc | ⟨h0, p, hp, rfl⟩) q
    · by_cases hq : q ∈ S
      · rw [hin q hq]
        exact (h.spare_ne_zero c hc).symm
      · rw [hout q hq]
        exact h.own_ne_spare c hc q
    · by_cases hq : q ∈ S
      · rw [hin q hq]
        exact h0.symm
      · rw [hout q hq]
        intro he
        exact hq (h.inj q p he (by rwa [he]) ▸ hp)
  used_iff := by
    intro c hc
    rw [h.used_iff c hc]
    constructor
    · rintro (⟨p, rfl⟩ | hs)
      · by_cases hp : p ∈ S
        · exact .inr (.inr ⟨hc, p, hp, rfl⟩)
        · exact .inl ⟨p, hout p hp⟩
      · exact .inr (.inl hs)
    · rintro (⟨p, rfl⟩ | hs | ⟨_, p, _, rfl⟩)
      · by_cases hp : p ∈ S
        · rw [hin p hp] at hc
          exact absurd rfl hc
        · exact .inl ⟨p, (hout p hp).symm⟩
      · exact .inr hs
      · exact .inl ⟨p, rfl⟩

theorem congr (h : Exact own used spare) (hown : ∀ p, own' p = own p)
    (hu : ∀ c, used' c ↔ used c) : Exact own' used' spare where
  inj := fun p q hpq hp => h.inj p q (by rw [← hown, ← hown, hpq]) (by rwa [← hown])
  spare_ne_zero := h.spare_ne_zero
  own_ne_spare := fun c hc p => by rw [hown]; exact h.own_ne_spare c hc p
  used_iff := by
    intro c hc
    simp only [hu, hown]
    exact h.used_iff c hc

end Exact

end Pool
