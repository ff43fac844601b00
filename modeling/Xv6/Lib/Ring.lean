import Xv6.Lib.Table
import Mathlib.Data.List.Nodup

/-!
# Circular doubly linked lists

The nodes are a head and the elements of a type, `none` and `some a`. Two tables
hold the pointers. `Path next prev x l y` says that the pointers lead from `x` over
the elements of `l` to `y` and back, and `Ring next prev l` that they lead from the
head over `l` back to the head.
-/

namespace Ring

open Table

variable {α : Type}

abbrev Pointers (α : Type) : Type := Option α → Option α

/-- The pointers lead from `x` over `l` to `y`, and back. -/
def Path (next prev : Pointers α) : Option α → List α → Option α → Prop
  | x, [], y => next x = y ∧ prev y = x
  | x, a :: l, y => next x = some a ∧ prev (some a) = x ∧ Path next prev (some a) l y

/-- The pointers lead once around over `l`. -/
structure IsRing (next prev : Pointers α) (l : List α) : Prop where
  nodup : l.Nodup
  path : Path next prev none l none

variable {next prev next' prev' : Pointers α} {l l₁ l₂ : List α} {x y : Option α} {a b : α}

/-! ## Paths -/

theorem path_append : ∀ {l₁ : List α} {x : Option α}, Path next prev x (l₁ ++ b :: l₂) y ↔
      Path next prev x l₁ (some b) ∧ Path next prev (some b) l₂ y
  | [], x => by simp [Path, and_assoc]
  | a :: l₁, x => by
    rw [List.cons_append, Path, Path, path_append]
    simp only [and_assoc]

theorem Path.congr :
    ∀ {l : List α} {x : Option α}, Path next prev x l y → next' x = next x → prev' y = prev y →
      (∀ a ∈ l, next' (some a) = next (some a) ∧ prev' (some a) = prev (some a)) → Path next' prev' x l y
  | [], x, h, hx, hy, _ => ⟨hx.trans h.1, hy.trans h.2⟩
  | a :: l, x, h, hx, hy, hl => by
    obtain ⟨h1, h2, h3⟩ := h
    obtain ⟨ha, ha'⟩ := hl a List.mem_cons_self
    exact ⟨hx.trans h1, ha'.trans h2,
      h3.congr ha hy fun c hc => hl c (List.mem_cons_of_mem a hc)⟩

theorem Path.reverse : ∀ {l : List α} {x : Option α}, Path next prev x l y → Path prev next y l.reverse x
  | [], x, h => ⟨h.2, h.1⟩
  | a :: l, x, h => by
    rw [List.reverse_cons]
    exact path_append.mpr ⟨h.2.2.reverse, h.2.1, h.1⟩

theorem Path.prev_mem :
    ∀ {l : List α} {x : Option α}, Path next prev x l y → prev y = x ∨ ∃ a ∈ l, prev y = some a
  | [], _, h => .inl h.2
  | a :: l, _, h => by
    obtain he | ⟨c, hc, he⟩ := h.2.2.prev_mem
    · exact .inr ⟨a, List.mem_cons_self, he⟩
    · exact .inr ⟨c, List.mem_cons_of_mem a hc, he⟩

/-! ## Loops -/

/-- Follow the pointers from a node until the test succeeds or the head is reached. -/
def walk (next : Pointers α) (test : α → Bool) : Nat → Option α → Option α
  | 0, _ => none
  | _ + 1, none => none
  | n + 1, some a => if test a then some a else walk next test n (next (some a))

theorem Path.walk (test : α → Bool) :
    ∀ {l : List α} {x : Option α} {n : Nat}, Path next prev x l none → l.length < n →
      walk next test n (next x) = l.find? test
  | [], x, n + 1, h, _ => by rw [h.1]; rfl
  | a :: l, x, n + 1, h, hn => by
    rw [h.1, Ring.walk, List.find?_cons]
    cases test a with
    | true => rfl
    | false => exact h.2.2.walk test (by simpa using hn)

theorem IsRing.walk_next (h : IsRing next prev l) (test : α → Bool) {n : Nat} (hn : l.length < n) :
    walk next test n (next none) = l.find? test := h.path.walk test hn

theorem IsRing.walk_prev (h : IsRing next prev l) (test : α → Bool) {n : Nat} (hn : l.length < n) :
    walk prev test n (prev none) = l.reverse.find? test :=
  h.path.reverse.walk test (by rwa [List.length_reverse])

/-! ## Updates -/

variable [DecidableEq α]

/-- Take `b` out. -/
def unlink (next prev : Pointers α) (b : α) : Pointers α × Pointers α :=
  let prev' := upd prev (next (some b)) (prev (some b))
  (upd next (prev' (some b)) (next (some b)), prev')

/-- Put `b` in after the head. -/
def pushFront (next prev : Pointers α) (b : α) : Pointers α × Pointers α :=
  let next₁ := upd next (some b) (next none)
  let prev₁ := upd prev (some b) none
  (upd next₁ none (some b), upd prev₁ (next₁ none) (some b))

theorem Path.redirect : ∀ {l : List α} {x : Option α}, Path next prev x l (some b) → (∀ a ∈ l, some a ≠ x) →
      l.Nodup → (∀ a ∈ l, some a ≠ y) → Path (upd next (prev (some b)) y) (upd prev y (prev (some b))) x l y
  | [], x, h, _, _, _ => by
    rw [h.2]
    exact ⟨upd_same _ _ _, upd_same _ _ _⟩
  | a :: l, x, h, hx, hl, hy => by
    have hxa := hx a List.mem_cons_self
    have hne : x ≠ prev (some b) := by
      intro he
      obtain hp | ⟨c, hc, hp⟩ := h.2.2.prev_mem
      · exact hxa (hp.symm.trans he.symm)
      · exact hx c (List.mem_cons_of_mem a hc) (hp.symm.trans he.symm)
    refine ⟨(upd_ne _ _ hne).trans h.1, (upd_ne _ _ (hy a List.mem_cons_self)).trans h.2.1, ?_⟩
    refine h.2.2.redirect (fun c hc he => ?_) (List.nodup_cons.mp hl).2
      fun c hc => hy c (List.mem_cons_of_mem a hc)
    cases he
    exact (List.nodup_cons.mp hl).1 hc

theorem IsRing.unlink (h : IsRing next prev (l₁ ++ b :: l₂)) :
    IsRing (unlink next prev b).1 (unlink next prev b).2 (l₁ ++ l₂) := by
  obtain ⟨hnd, hpath⟩ := h
  obtain ⟨h₁, h₂⟩ := path_append.mp hpath
  have hnd' : (l₁ ++ l₂).Nodup := (List.nodup_middle.mp hnd).of_cons
  have hb : b ∉ l₁ ++ l₂ := (List.nodup_cons.mp (List.nodup_middle.mp hnd)).1
  -- the pointer read in the second assignment is not the one the first has changed
  have hself : next (some b) ≠ some b := by
    cases l₂ with
    | nil => rw [h₂.1]; nofun
    | cons c l₂ =>
      rw [h₂.1]
      rintro ⟨⟩
      simp at hb
  have hread : upd prev (next (some b)) (prev (some b)) (some b) = prev (some b) :=
    upd_ne _ _ hself.symm
  simp only [Ring.unlink, hread]
  refine ⟨hnd', ?_⟩
  cases l₂ with
  | nil =>
    rw [h₂.1, List.append_nil]
    exact h₁.redirect (fun _ _ => nofun) (by simpa using hnd') fun _ _ => nofun
  | cons c l₂ =>
    have hc : next (some b) = some c := h₂.1
    have hdis := List.nodup_append.mp hnd'
    have hcl : c ∉ l₂ := (List.nodup_cons.mp hdis.2.1).1
    rw [hc]
    refine path_append.mpr ⟨?_, ?_⟩
    · refine h₁.redirect (fun _ _ => nofun) hdis.1 fun a ha he => ?_
      cases he
      exact hdis.2.2 c ha c List.mem_cons_self rfl
    · -- the rest of the path is behind both changes
      have hlast : ∀ d ∈ c :: l₂, some d ≠ prev (some b) := by
        intro d hd he
        obtain hp | ⟨a, ha, hp⟩ := h₁.prev_mem
        · rw [hp] at he
          cases he
        · rw [hp] at he
          cases he
          exact hdis.2.2 d ha d hd rfl
      refine h₂.2.2.congr (upd_ne _ _ (hlast c List.mem_cons_self)) (upd_ne _ _ nofun)
        fun d hd => ⟨upd_ne _ _ (hlast d (List.mem_cons_of_mem c hd)), upd_ne _ _ ?_⟩
      rintro ⟨⟩
      exact hcl hd

theorem IsRing.pushFront (h : IsRing next prev l) (hb : b ∉ l) :
    IsRing (pushFront next prev b).1 (pushFront next prev b).2 (b :: l) := by
  have hfirst : upd next (some b) (next none) none = next none := upd_ne _ _ nofun
  simp only [Ring.pushFront, hfirst]
  refine ⟨List.nodup_cons.mpr ⟨hb, h.nodup⟩, ?_⟩
  have hpath := h.path
  cases l with
  | nil =>
    have hn : next none = none := hpath.1
    rw [hn]
    simp [Path, upd]
  | cons c l =>
    have hn : next none = some c := hpath.1
    have hbc : b ≠ c := fun he => hb (he ▸ List.mem_cons_self)
    have hcl : c ∉ l := (List.nodup_cons.mp h.nodup).1
    rw [hn]
    refine ⟨upd_same _ _ _, ?_, ?_, upd_same _ _ _, ?_⟩
    · rw [upd_ne _ _ (by simpa using hbc)]
      exact upd_same _ _ _
    · simp [upd]
    · refine hpath.2.2.congr ?_ ?_ fun d hd => ?_
      · simp [upd, hbc.symm]
      · simp [upd]
      · have hdb : d ≠ b := fun he => hb (he ▸ List.mem_cons_of_mem c hd)
        have hdc : d ≠ c := fun he => hcl (he ▸ hd)
        simp [upd, hdb, hdc]

end Ring
