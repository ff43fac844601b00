import Mathlib.Data.List.Infix

/-!
# Runs of a deterministic transition function

A system is a partial step function on states and events. `none` means the
event cannot happen in the state. A run is a list of events. An invariant of
one step is an invariant of every run (`run_invariant`).
-/

namespace Trans

variable {σ ε : Type} (step : σ → ε → Option σ)

/-- The state after a list of events, if each of them can happen in turn. -/
def run : σ → List ε → Option σ
  | s, [] => some s
  | s, e :: es => (step s e).bind fun t => run t es

@[simp] theorem run_nil (s : σ) : run step s [] = some s := rfl

variable {step}

variable {s t : σ} {e : ε} {es : List ε}

theorem run_cons (h : run step s (e :: es) = some t) :
    ∃ u, step s e = some u ∧ run step u es = some t := Option.bind_eq_some_iff.mp h

theorem run_append {fs : List ε} : ∀ {s t : σ}, run step s (es ++ fs) = some t →
      ∃ u, run step s es = some u ∧ run step u fs = some t := by
  induction es with
  | nil => intro s t h; exact ⟨s, rfl, h⟩
  | cons e es ih =>
    intro s t h
    obtain ⟨u, hu, hrest⟩ := run_cons h
    obtain ⟨v, hv, ht⟩ := ih hrest
    refine ⟨v, ?_, ht⟩
    rw [run, hu]
    exact hv

theorem run_singleton (h : run step s [e] = some t) : step s e = some t := by
  obtain ⟨u, hu, ht⟩ := run_cons h
  rw [run_nil, Option.some.injEq] at ht
  exact ht ▸ hu

theorem run_snoc {u : σ} (h : run step s es = some t)
    (he : step t e = some u) : run step s (es ++ [e]) = some u := by
  induction es generalizing s with
  | nil =>
    rw [run_nil, Option.some.injEq] at h
    rw [List.nil_append, run, h, he]
    rfl
  | cons f fs ih =>
    obtain ⟨v, hv, hrest⟩ := run_cons h
    rw [List.cons_append, run, hv]
    exact ih hrest

variable {P : σ → Prop}

theorem run_invariant (hstep : ∀ s e t, step s e = some t → P s → P t) :
    ∀ {es : List ε} {s t : σ}, run step s es = some t → P s → P t
  | [], s, t, h, hs => by
    rw [run_nil, Option.some.injEq] at h
    exact h ▸ hs
  | e :: es, s, t, h, hs => by
    obtain ⟨u, hu, hrest⟩ := run_cons h
    exact run_invariant hstep hrest (hstep s e u hu hs)

variable {C : σ → ε → Prop}

/-- The same for a step that preserves `P` under a condition on the state before
it and the event, when every step of the run meets the condition. -/
theorem run_invariant_of (hstep : ∀ s e t, step s e = some t → C s e → P s → P t) :
    ∀ {es : List ε} {s t : σ}, run step s es = some t →
      (∀ es₁ e es₂, es = es₁ ++ e :: es₂ → ∀ u, run step s es₁ = some u → C u e) → P s → P t
  | [], s, t, h, _, hs => by
    rw [run_nil, Option.some.injEq] at h
    exact h ▸ hs
  | e :: es, s, t, h, hC, hs => by
    obtain ⟨u, hu, hrest⟩ := run_cons h
    refine run_invariant_of hstep hrest (fun es₁ e' es₂ he v hv => ?_)
      (hstep s e u hu (hC [] e es rfl s rfl) hs)
    refine hC (e :: es₁) e' es₂ (by rw [he]; rfl) v ?_
    rw [run, hu]
    exact hv

/-! ## Runs that meet a condition -/

/-- Every step of the run meets the condition `C` in the state before it. -/
def Always (step : σ → ε → Option σ) (C : σ → ε → Prop) : σ → List ε → Prop
  | _, [] => True
  | s, e :: es => C s e ∧ (step s e).elim True fun t => Always step C t es

instance Always.decidable (step : σ → ε → Option σ) (C : σ → ε → Prop) [∀ s e, Decidable (C s e)] :
    ∀ (s : σ) (es : List ε), Decidable (Always step C s es)
  | _, [] => inferInstanceAs (Decidable True)
  | s, e :: es =>
    have : Decidable ((step s e).elim True fun t => Always step C t es) :=
      match step s e with
      | none => inferInstanceAs (Decidable True)
      | some t => Always.decidable step C t es
    inferInstanceAs (Decidable (C s e ∧ _))

theorem Always.cons (he : C s e)
    (hstep : step s e = some t) (h : Always step C t es) : Always step C s (e :: es) := by
  refine ⟨he, ?_⟩
  rw [hstep]
  exact h

theorem run_invariant_always (hstep : ∀ s e t, step s e = some t → C s e → P s → P t) :
    ∀ {es : List ε} {s t : σ}, run step s es = some t → Always step C s es → P s → P t
  | [], s, t, h, _, hs => by
    rw [run_nil, Option.some.injEq] at h
    exact h ▸ hs
  | e :: es, s, t, h, hC, hs => by
    obtain ⟨u, hu, hrest⟩ := run_cons h
    obtain ⟨he, hC⟩ := hC
    rw [hu] at hC
    exact run_invariant_always hstep hrest hC (hstep s e u hu he hs)

/-! ## Histories -/

/-- The system with a history of its run. `note` adds a step to the history, and
no step depends on it. -/
def withHistory {γ : Type} (step : σ → ε → Option σ) (note : σ → ε → σ → γ → γ) :
    σ × γ → ε → Option (σ × γ) :=
  fun x e => (step x.1 e).map fun t => (t, note x.1 e t x.2)

theorem withHistory_some {γ : Type} {note : σ → ε → σ → γ → γ} {x y : σ × γ}
    (h : withHistory step note x e = some y) : step x.1 e = some y.1 ∧ y.2 = note x.1 e y.1 x.2 := by
  obtain ⟨t, ht, rfl⟩ := Option.map_eq_some_iff.mp h
  exact ⟨ht, rfl⟩

end Trans
