import Mathlib.Data.Fintype.Card
import Mathlib.Algebra.BigOperators.Group.Finset.Piecewise

/-!
# Tables

A table is a function of its index. `upd f a v` is the table with the entry at
`a` replaced by `v`. `Function.update` is the same function for tables whose
entries have one type. It carries the entry over an equation between indices,
and evaluating it at an index that is not a literal compares the indices twice.
-/

namespace Table

variable {α β : Type} [DecidableEq α]

def upd (f : α → β) (a : α) (v : β) : α → β := fun x => if x = a then v else f x

@[simp] theorem upd_same (f : α → β) (a : α) (v : β) : upd f a v a = v := if_pos rfl

@[simp] theorem upd_ne (f : α → β) {a x : α} (v : β) (h : x ≠ a) : upd f a v x = f x := if_neg h

theorem upd_apply (f : α → β) (a : α) (v : β) (x : α) : upd f a v x = if x = a then v else f x := rfl

@[simp] theorem upd_upd (f : α → β) (a : α) (v w : β) : upd (upd f a v) a w = upd f a w := by
  funext x
  by_cases h : x = a
  · simp [upd, h]
  · simp [upd, h]

theorem upd_comm (f : α → β) {a b : α} (v w : β) (h : a ≠ b) :
    upd (upd f a v) b w = upd (upd f b w) a v := by
  funext x
  by_cases ha : x = a
  · subst ha; simp [upd, h]
  · by_cases hb : x = b
    · subst hb; simp [upd, ha]
    · simp [upd, ha, hb]

@[simp] theorem upd_eq_self (f : α → β) (a : α) : upd f a (f a) = f := by
  funext x
  by_cases h : x = a
  · simp [upd, h]
  · simp [upd, h]

theorem card_filter_upd [Fintype α] (p : β → Prop) [DecidablePred p] (f : α → β) (a : α) (v : β) :
    (Finset.univ.filter fun x => p (upd f a v x)).card + (if p (f a) then 1 else 0) =
      (Finset.univ.filter fun x => p (f x)).card + (if p v then 1 else 0) := by
  have hrest : ((Finset.univ.erase a).filter fun x => p (upd f a v x)) =
      (Finset.univ.erase a).filter fun x => p (f x) :=
    Finset.filter_congr fun x hx => by rw [upd_ne _ _ (Finset.ne_of_mem_erase hx)]
  have hsplit : ∀ q : α → Prop, [DecidablePred q] → (Finset.univ.filter q).card =
      ((Finset.univ.erase a).filter q).card + if q a then 1 else 0 := by
    intro q _
    rw [← Finset.insert_erase (Finset.mem_univ a), Finset.filter_insert, Finset.erase_insert_eq_erase]
    split
    · rw [Finset.card_insert_of_notMem (by simp), Finset.erase_idem]
    · rw [Finset.erase_idem, Nat.add_zero]
  rw [hsplit fun x => p (upd f a v x), hsplit fun x => p (f x), hrest, upd_same]
  omega

theorem sum_upd (w : β → Nat) (f : α → β) {a : α} (v : β) {s : Finset α} (h : a ∈ s) :
    (∑ x ∈ s, w (upd f a v x)) + w (f a) = (∑ x ∈ s, w (f x)) + w v := by
  have hrest : ∑ x ∈ s.erase a, w (upd f a v x) = ∑ x ∈ s.erase a, w (f x) :=
    Finset.sum_congr rfl fun x hx => by rw [upd_ne _ _ (Finset.ne_of_mem_erase hx)]
  rw [← Finset.add_sum_erase s _ h, ← Finset.add_sum_erase s (fun x => w (f x)) h, hrest, upd_same]
  omega

theorem card_filter_ne {s : Finset α} {a : α} (ha : a ∈ s) {p q : α → Prop} [DecidablePred p]
    [DecidablePred q] (h : ∀ x ≠ a, (p x ↔ q x)) :
    (s.filter p).card + (if q a then 1 else 0) = (s.filter q).card + (if p a then 1 else 0) := by
  have hrest : ∑ x ∈ s.erase a, (if p x then 1 else 0) = ∑ x ∈ s.erase a, (if q x then 1 else 0) :=
    Finset.sum_congr rfl fun x hx => by simp only [h x (Finset.ne_of_mem_erase hx)]
  rw [Finset.card_filter, Finset.card_filter, ← Finset.add_sum_erase s _ ha,
    ← Finset.add_sum_erase s (fun x => if q x then 1 else 0) ha, hrest]
  omega

end Table
