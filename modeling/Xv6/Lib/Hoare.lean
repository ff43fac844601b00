import Mathlib.Logic.Basic

/-!
# Programs with state and failure

A program over a state `σ` that may stop with an error `ε` is a
`StateT σ (Except ε)`. `Wp m s Q E` says what running `m` from `s` does: if it
returns `a` in the state `t` then `Q a t`, and if it stops with `e` then `E e`.
The rules take a program apart at each of its constructors, so a proof about a
function follows the text of the function and uses one such statement for each
function it calls.
-/

namespace Hoare

variable {σ ε α β : Type}

/-- A program over a state that may stop with an error. -/
abbrev Prog (σ ε α : Type) : Type := StateT σ (Except ε) α

/-- Running `m` from `s` ends in `Q`, or stops in `E`. The rules below are the
only way in, so nothing evaluates `m`. -/
@[irreducible] def Wp (m : Prog σ ε α) (s : σ) (Q : α → σ → Prop) (E : ε → Prop) : Prop :=
  match m s with
  | .ok (a, t) => Q a t
  | .error e => E e

variable {m : Prog σ ε α} {s t : σ} {a : α} {Q : α → σ → Prop} {E : ε → Prop}

theorem wp_ok (h : Wp m s Q E) (hm : m s = .ok (a, t)) : Q a t := by
  rwa [Wp, hm] at h

theorem wp_error {e : ε} (h : Wp m s Q E) (hm : m s = .error e) : E e := by
  rwa [Wp, hm] at h

theorem eq_of_wp (h : Wp m s (fun b u => b = a ∧ u = t) fun _ => False) : m s = .ok (a, t) := by
  unfold Wp at h
  split at h
  · next b u hm => rw [hm, h.1, h.2]
  · exact h.elim

variable {Q' : α → σ → Prop} {E' : ε → Prop}

theorem Wp.mono (h : Wp m s Q E) (hQ : ∀ a t, Q a t → Q' a t) (hE : ∀ e, E e → E' e) : Wp m s Q' E' := by
  unfold Wp at *
  split
  · next a t hm => rw [hm] at h; exact hQ a t h
  · next e hm => rw [hm] at h; exact hE e h

theorem Wp.imp (h : Wp m s Q E) (hQ : ∀ a t, Q a t → Q' a t) : Wp m s Q' E :=
  h.mono hQ fun _ he => he

theorem Wp.and (h : Wp m s Q E)
    (h' : Wp m s Q' E') : Wp m s (fun a t => Q a t ∧ Q' a t) fun e => E e ∧ E' e := by
  unfold Wp at *
  split
  · next a t hm =>
      rw [hm] at h h'
      exact ⟨h, h'⟩
  · next e hm =>
      rw [hm] at h h'
      exact ⟨h, h'⟩

theorem Wp.also (h : Wp m s Q E) (h' : Wp m s Q' E') : Wp m s (fun a t => Q a t ∧ Q' a t) E :=
  (h.and h').mono (fun _ _ ht => ht) fun _ he => he.1

theorem wp_any (m : Prog σ ε α) : Wp m s (fun _ _ => True) fun _ => True := by
  unfold Wp
  split <;> trivial

@[simp] theorem wp_pure : Wp (pure a : Prog σ ε α) s Q E ↔ Q a s := by
  unfold Wp; exact Iff.rfl

@[simp] theorem wp_throw {e : ε} : Wp (throw e : Prog σ ε α) s Q E ↔ E e := by
  unfold Wp; exact Iff.rfl

@[simp] theorem wp_get {Q : σ → σ → Prop} : Wp (get : Prog σ ε σ) s Q E ↔ Q s s := by
  unfold Wp; exact Iff.rfl

@[simp] theorem wp_set {Q : PUnit → σ → Prop} : Wp (set t : Prog σ ε PUnit) s Q E ↔ Q ⟨⟩ t := by
  unfold Wp; exact Iff.rfl

@[simp] theorem wp_modify {f : σ → σ} {Q : PUnit → σ → Prop} :
    Wp (modify f : Prog σ ε PUnit) s Q E ↔ Q ⟨⟩ (f s) := by
  unfold Wp; exact Iff.rfl

@[simp] theorem wp_bind {f : α → Prog σ ε β} {Q : β → σ → Prop} : Wp (m >>= f) s Q E ↔ Wp m s (fun a t => Wp (f a) t Q E) E := by
  have hb : (m >>= f) s = m s >>= fun p => f p.1 p.2 := rfl
  unfold Wp
  rw [hb]
  cases m s with
  | ok p => rfl
  | error e => rfl

theorem Wp.bind {f : α → Prog σ ε β} {R : α → σ → Prop}
    {Q : β → σ → Prop} (hm : Wp m s R E') (hf : ∀ a t, R a t → Wp (f a) t Q E)
    (hE : ∀ e, E' e → E e) : Wp (m >>= f) s Q E :=
  wp_bind.mpr (hm.mono hf hE)

theorem Wp.seq {f : α → Prog σ ε β} {R : α → σ → Prop} {Q : β → σ → Prop} (hm : Wp m s R E)
    (hf : ∀ a t, R a t → Wp (f a) t Q E) : Wp (m >>= f) s Q E :=
  hm.bind hf fun _ he => he

theorem wp_ite {c : Prop} [Decidable c] {m' : Prog σ ε α} (ht : c → Wp m s Q E) (hf : ¬ c → Wp m' s Q E) :
    Wp (if c then m else m') s Q E := by
  split
  · next h => exact ht h
  · next h => exact hf h

end Hoare
