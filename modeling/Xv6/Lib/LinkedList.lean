import Xv6.Lib.Table
import Mathlib.Data.List.Basic

/-!
# Null-terminated lists

A list of cells that are linked by `next`, from a first cell to one without a next one.
`Linked` relates the links to the list of the cells. `last` is the walk to the last cell,
after which a new cell is linked.
-/

namespace LinkedList

open Table

variable {α : Type} [DecidableEq α] {next next' : α → Option α} {o : Option α} {x b : α} {l : List α}

/-- The cells from `o` on are those of the list. -/
def Linked (next : α → Option α) : Option α → List α → Prop
  | o, [] => o = none
  | o, x :: l => o = some x ∧ Linked next (next x) l

/-- The last cell from `x` on, in at most `m` steps. -/
def last (next : α → Option α) : Nat → α → Option α
  | 0, _ => none
  | m + 1, x =>
    match next x with
    | none => some x
    | some y => last next m y

omit [DecidableEq α] in
theorem Linked.congr : ∀ {l : List α} {o : Option α}, Linked next o l → (∀ x ∈ l, next' x = next x) →
    Linked next' o l
  | [], _, h, _ => h
  | x :: l, o, ⟨ho, h⟩, heq => by
    refine ⟨ho, ?_⟩
    rw [heq x (List.mem_cons_self ..)]
    exact Linked.congr h fun y hy => heq y (List.mem_cons_of_mem x hy)

omit [DecidableEq α] in
theorem Linked.last_eq : ∀ {l : List α} {x : α} {m : Nat}, Linked next (some x) (x :: l) →
    l.length < m → last next m x = some ((x :: l).getLast (List.cons_ne_nil x l))
  | [], x, m + 1, ⟨_, h⟩, _ => by
    rw [last, show next x = none from h]
    rfl
  | y :: l, x, m + 1, ⟨_, h⟩, hlt => by
    have hnext : next x = some y := h.1
    rw [last, hnext]
    dsimp only
    rw [hnext] at h
    rw [Linked.last_eq h (Nat.lt_of_succ_lt_succ hlt), List.getLast_cons (List.cons_ne_nil y l)]

theorem Linked.concat : ∀ {l : List α} {x : α}, Linked next (some x) (x :: l) → (x :: l).Nodup →
    b ∉ x :: l → next b = none →
    Linked (upd next ((x :: l).getLast (List.cons_ne_nil x l)) (some b)) (some x) (x :: l ++ [b])
  | [], x, _, _, hb, hnone => by
    have hne : b ≠ x := fun he => hb (he ▸ List.mem_singleton.mpr rfl)
    refine ⟨rfl, ?_, ?_⟩
    · exact upd_same ..
    · change upd next x (some b) b = none
      rw [upd_ne _ _ hne]
      exact hnone
  | y :: l, x, ⟨_, h⟩, hnodup, hb, hnone => by
    have hnext : next x = some y := h.1
    rw [hnext] at h
    obtain ⟨hx, hnodup'⟩ := List.nodup_cons.mp hnodup
    have hlast : x ≠ (y :: l).getLast (List.cons_ne_nil y l) :=
      fun he => hx (he ▸ List.getLast_mem _)
    have hrest := Linked.concat h hnodup' (fun hm => hb (List.mem_cons_of_mem x hm)) hnone
    refine ⟨rfl, ?_⟩
    rw [List.getLast_cons (List.cons_ne_nil y l), upd_ne _ _ hlast, hnext]
    exact hrest

end LinkedList
