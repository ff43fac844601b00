import Mathlib.Logic.Function.Basic

/-!
# Sequences of atomic writes

A store is a function from addresses to values. A program that writes to it
is, for a crash, the list of its writes in program order. A crash keeps a
prefix of that list.

Two facts make a redo log work. A location outside the writes keeps its value
(`applyWrites_of_notMem`). If the value of each write depends on its location
alone, then a location inside them ends at that value whatever it held before
and however often the list was started (`applyWrites_graph`).
-/

namespace Redo

variable {α β : Type} [DecidableEq α]

/-- The store after a list of writes, oldest first. -/
def applyWrites : List (α × β) → (α → β) → α → β
  | [], d => d
  | w :: ws, d => applyWrites ws (Function.update d w.1 w.2)

@[simp] theorem applyWrites_nil (d : α → β) : applyWrites [] d = d := rfl

@[simp] theorem applyWrites_cons (w : α × β) (ws : List (α × β)) (d : α → β) :
    applyWrites (w :: ws) d = applyWrites ws (Function.update d w.1 w.2) := rfl

theorem applyWrites_append (ws vs : List (α × β)) (d : α → β) :
    applyWrites (ws ++ vs) d = applyWrites vs (applyWrites ws d) := by
  induction ws generalizing d with
  | nil => rfl
  | cons w ws ih => exact ih _

theorem applyWrites_of_notMem {ws : List (α × β)} {x : α} (h : x ∉ ws.map Prod.fst)
    (d : α → β) : applyWrites ws d x = d x := by
  induction ws generalizing d with
  | nil => rfl
  | cons w ws ih =>
    rw [List.map_cons, List.mem_cons, not_or] at h
    rw [applyWrites_cons, ih h.2, Function.update_of_ne h.1]

theorem applyWrites_graph (l : List α) (f : α → β) (d : α → β) (x : α) :
    applyWrites (l.map fun a => (a, f a)) d x = if x ∈ l then f x else d x := by
  induction l generalizing d with
  | nil => rfl
  | cons a l ih =>
    rw [List.map_cons, applyWrites_cons, ih]
    by_cases hx : x ∈ l
    · rw [if_pos hx, if_pos (List.mem_cons_of_mem _ hx)]
    · rw [if_neg hx]
      by_cases ha : x = a
      · subst ha; simp
      · rw [Function.update_of_ne ha, if_neg (by simp [ha, hx])]

end Redo
