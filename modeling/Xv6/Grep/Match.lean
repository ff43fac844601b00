import Mathlib.Computability.Language
import Mathlib.Tactic.Common

/-!
# The matcher of `grep`

`match`, `matchhere` and `matchstar` of `grep.c`. A pointer into a string is the list of the
characters from there to the end of its object, the terminator and what may follow it
included. A read past the end of the object has no value, and so has a call that does it.

`matchhere` calls itself for a shorter pattern, and `matchstar` calls it for one pattern and
each suffix of the text. So `matchstar` takes the calls of `matchhere` as a function of the
text, and the recursion is structural.
-/

namespace Xv6.Grep

open Computability

abbrev NUL : Char := '\x00'

/-! ## The code -/

/-- `matchstar(c, re, text)`, where `here` is `matchhere(re, ·)`. -/
def matchstar (c : Char) (here : List Char → Option Bool) : List Char → Option Bool
  | [] => (here []).bind fun b => if b then some true else none
  | t :: text =>
    (here (t :: text)).bind fun b =>
      if b then some true
      else if t ≠ NUL ∧ (t = c ∨ c = '.') then matchstar c here text
      else some false

def matchhere : List Char → List Char → Option Bool
  | [], _ => none
  | r :: re, text =>
    if r = NUL then some true
    else
      match re with
      | [] => none
      | r₁ :: re' =>
        if r₁ = '*' then matchstar r (matchhere re') text
        else
          match text with
          | [] => none
          | t :: text' =>
            if r = '$' ∧ r₁ = NUL then some (decide (t = NUL))
            else if t ≠ NUL ∧ (r = '.' ∨ r = t) then matchhere (r₁ :: re') text'
            else some false

theorem matchhere_nul (re text : List Char) : matchhere (NUL :: re) text = some true := by
  rw [matchhere.eq_def]
  exact if_pos rfl

theorem matchhere_cons {r : Char} (hr : r ≠ NUL) (r₁ : Char) (re text : List Char) :
    matchhere (r :: r₁ :: re) text = if r₁ = '*' then matchstar r (matchhere re) text
      else
        match text with
        | [] => none
        | t :: text' =>
          if r = '$' ∧ r₁ = NUL then some (decide (t = NUL))
          else if t ≠ NUL ∧ (r = '.' ∨ r = t) then matchhere (r₁ :: re) text'
          else some false := by
  rw [matchhere.eq_def]
  exact if_neg hr

/-- The loop of `match` over the text. -/
def search (here : List Char → Option Bool) : List Char → Option Bool
  | [] => (here []).bind fun b => if b then some true else none
  | t :: text =>
    (here (t :: text)).bind fun b =>
      if b then some true
      else if t ≠ NUL then search here text
      else some false

/-- `match(re, text)`. -/
def matchRe : List Char → List Char → Option Bool
  | [], _ => none
  | r :: re, text => if r = '^' then matchhere re text else search (matchhere (r :: re)) text

/-! ## The meaning of a pattern -/

/-- A character of a pattern, or a character with a star. -/
inductive Item where
  | one (c : Char)
  | star (c : Char)

/-- The characters that `c` stands for. -/
def Admits (c x : Char) : Prop := c = '.' ∨ x = c

instance (c x : Char) : Decidable (Admits c x) := inferInstanceAs (Decidable (_ ∨ _))

def single (c : Char) : Language Char := {w | ∃ x, w = [x] ∧ Admits c x}

def Item.lang : Item → Language Char
  | .one c => single c
  | .star c => (single c)∗

/-- The items of a pattern. A `$` at its end is none. -/
def items : List Char → List Item
  | [] => []
  | [c] => if c = '$' then [] else [.one c]
  | c :: d :: re => if d = '*' then .star c :: items re else .one c :: items (d :: re)

/-- The language of a pattern without the anchor at its start. -/
def lang (re : List Char) : Language Char := ((items re).map Item.lang).prod

/-- The pattern after a `^` at its start. -/
def body (re : List Char) : List Char := if re.head? = some '^' then re.tail else re

/-- Some part of the text is in the language of the pattern, where the anchors allow it. -/
def Matches (re text : List Char) : Prop :=
  ∃ u w v, text = u ++ w ++ v ∧ w ∈ lang (body re) ∧ (re.head? = some '^' → u = []) ∧
    ((body re).getLast? = some '$' → v = [])

/-- A prefix of the text is in the language of a pattern without the anchor at its start. -/
def MatchesHere (re text : List Char) : Prop :=
  ∃ w v, text = w ++ v ∧ w ∈ lang re ∧ (re.getLast? = some '$' → v = [])

/-! ## Languages -/

theorem mem_single_kstar {c : Char} {w : List Char} : w ∈ (single c)∗ ↔ ∀ x ∈ w, Admits c x := by
  rw [Language.mem_kstar]
  constructor
  · rintro ⟨L, rfl, hL⟩ x hx
    obtain ⟨y, hy, hxy⟩ := List.mem_flatten.mp hx
    obtain ⟨z, rfl, hz⟩ := hL y hy
    cases List.mem_singleton.mp hxy
    exact hz
  · intro h
    refine ⟨w.map fun x => [x], ?_, fun y hy => ?_⟩
    · induction w with
      | nil => rfl
      | cons x w ih => rw [List.map_cons, List.flatten_cons, ← ih fun y hy => h y (.tail x hy)]; rfl
    · obtain ⟨x, hx, rfl⟩ := List.mem_map.mp hy
      exact ⟨x, rfl, h x hx⟩

theorem lang_nil : lang [] = 1 := rfl

theorem lang_dollar : lang ['$'] = 1 := rfl

theorem lang_star (c : Char) (re : List Char) : lang (c :: '*' :: re) = (single c)∗ * lang re := by
  rw [lang, items, if_pos rfl, List.map_cons, List.prod_cons]
  rfl

theorem lang_one {c : Char} {re : List Char} (hstar : re.head? ≠ some '*') (hend : re = [] → c ≠ '$') :
    lang (c :: re) = single c * lang re := by
  cases re with
  | nil =>
    rw [lang, items, if_neg (hend rfl)]
    rfl
  | cons d re =>
    rw [lang, items, if_neg (fun h => hstar (by rw [List.head?_cons, h])), List.map_cons, List.prod_cons]
    rfl

theorem matchesHere_nil (text : List Char) : MatchesHere [] text :=
  ⟨[], text, rfl, by rw [lang_nil]; exact Language.nil_mem_one, fun h => by cases h⟩

theorem matchesHere_dollar (text : List Char) : MatchesHere ['$'] text ↔ text = [] := by
  constructor
  · rintro ⟨w, v, rfl, hw, hv⟩
    rw [lang_dollar, Language.mem_one] at hw
    rw [hw, hv rfl, List.append_nil]
  · rintro rfl
    exact ⟨[], [], rfl, by rw [lang_dollar]; exact Language.nil_mem_one, fun _ => rfl⟩

theorem matchesHere_star (c : Char) (re text : List Char) : MatchesHere (c :: '*' :: re) text ↔
      ∃ u v, text = u ++ v ∧ (∀ x ∈ u, Admits c x) ∧ MatchesHere re v := by
  have hlast : re.getLast? = some '$' ↔ (c :: '*' :: re).getLast? = some '$' := by
    cases re with
    | nil => simp
    | cons d re => rw [List.getLast?_cons_cons, List.getLast?_cons_cons]
  unfold MatchesHere
  rw [lang_star]
  constructor
  · rintro ⟨w, v, rfl, hw, hv⟩
    obtain ⟨a, ha, b, hb, rfl⟩ := Language.mem_mul.mp hw
    exact ⟨a, b ++ v, List.append_assoc a b v, mem_single_kstar.mp ha, b, v, rfl, hb,
      fun h => hv (hlast.mp h)⟩
  · rintro ⟨u, v, rfl, hu, b, v', rfl, hb, hv'⟩
    exact ⟨u ++ b, v', (List.append_assoc u b v').symm,
      Language.append_mem_mul (mem_single_kstar.mpr hu) hb, fun h => hv' (hlast.mpr h)⟩

theorem matchesHere_one {c : Char} (re text : List Char) (hstar : re.head? ≠ some '*')
    (hend : re = [] → c ≠ '$') :
    MatchesHere (c :: re) text ↔ ∃ t text', text = t :: text' ∧ Admits c t ∧ MatchesHere re text' := by
  have hlast : re.getLast? = some '$' ↔ (c :: re).getLast? = some '$' := by
    cases re with
    | nil => simpa using hend rfl
    | cons d re => rw [List.getLast?_cons_cons]
  unfold MatchesHere
  rw [lang_one hstar hend]
  constructor
  · rintro ⟨w, v, rfl, hw, hv⟩
    obtain ⟨a, ⟨t, rfl, ht⟩, b, hb, rfl⟩ := Language.mem_mul.mp hw
    exact ⟨t, b ++ v, rfl, ht, b, v, rfl, hb, fun h => hv (hlast.mp h)⟩
  · rintro ⟨t, text', rfl, ht, b, v, rfl, hb, hv⟩
    exact ⟨t :: b, v, rfl, Language.append_mem_mul (l := single c) ⟨t, rfl, ht⟩ hb, fun h => hv (hlast.mpr h)⟩

/-! ## The code finds what the language says -/

/-- The call returns, and says whether `P` holds. -/
def Decides (x : Option Bool) (P : Prop) : Prop := ∃ b, x = some b ∧ (b = true ↔ P)

theorem Decides.congr {x : Option Bool} {P Q : Prop} (h : Decides x P) (hPQ : P ↔ Q) : Decides x Q := by
  obtain ⟨b, hb, hiff⟩ := h
  exact ⟨b, hb, hiff.trans hPQ⟩

section Loops

variable {here : List Char → Option Bool} {P : List Char → Prop} {s : List Char}

theorem search_eq (here : List Char → Option Bool) : ∀ text, search here text = matchstar '.' here text
  | [] => rfl
  | t :: text => by
    rw [search, matchstar, search_eq here text]
    simp only [or_true, and_true]

theorem matchstar_decides (c : Char) : ∀ text : List Char, NUL ∉ text →
      (∀ u v, text = u ++ v → Decides (here (v ++ NUL :: s)) (P v)) →
      Decides (matchstar c here (text ++ NUL :: s)) (∃ u v, text = u ++ v ∧ (∀ x ∈ u, Admits c x) ∧ P v)
  | [], _, hhere => by
    obtain ⟨b, hb, hP⟩ := hhere [] [] rfl
    rw [List.nil_append] at hb ⊢
    rw [matchstar, hb]
    cases b with
    | true => exact ⟨true, rfl, fun _ => ⟨[], [], rfl, List.forall_mem_nil _, hP.mp rfl⟩, fun _ => rfl⟩
    | false =>
      refine ⟨false, by simp, ⟨fun h => (by cases h), ?_⟩⟩
      rintro ⟨u, v, huv, -, hv⟩
      obtain ⟨rfl, rfl⟩ := List.nil_eq_append_iff.mp huv
      exact hP.mpr hv
  | t :: text, hnul, hhere => by
    obtain ⟨b, hb, hP⟩ := hhere [] (t :: text) rfl
    have hcons : t :: text ++ NUL :: s = t :: (text ++ NUL :: s) := rfl
    rw [hcons] at hb ⊢
    rw [matchstar, hb]
    cases b with
    | true =>
      exact ⟨true, rfl, fun _ => ⟨[], t :: text, rfl, List.forall_mem_nil _, hP.mp rfl⟩, fun _ => rfl⟩
    | false =>
      have htext : ¬ P (t :: text) := fun h => by cases hP.mpr h
      have ht : t ≠ NUL := fun h => hnul (h ▸ List.mem_cons_self)
      simp only [Option.bind_some, Bool.false_eq_true, if_false]
      by_cases hc : t = c ∨ c = '.'
      · rw [if_pos ⟨ht, hc⟩]
        refine (matchstar_decides c text (fun h => hnul (.tail t h)) fun u v huv => ?_).congr ?_
        · exact hhere (t :: u) v (by rw [huv]; rfl)
        · constructor
          · rintro ⟨u, v, rfl, hu, hv⟩
            refine ⟨t :: u, v, rfl, fun x hx => ?_, hv⟩
            rcases List.mem_cons.mp hx with rfl | hx
            · exact hc.symm
            · exact hu x hx
          · rintro ⟨u, v, huv, hu, hv⟩
            cases u with
            | nil =>
              rw [List.nil_append] at huv
              exact absurd (huv ▸ hv) htext
            | cons x u =>
              cases huv
              exact ⟨u, v, rfl, fun y hy => hu y (.tail _ hy), hv⟩
      · rw [if_neg fun h => hc h.2]
        refine ⟨false, rfl, ⟨fun h => (by cases h), ?_⟩⟩
        rintro ⟨u, v, huv, hu, hv⟩
        cases u with
        | nil =>
          rw [List.nil_append] at huv
          exact absurd (huv ▸ hv) htext
        | cons x u =>
          cases huv
          exact absurd (hu t List.mem_cons_self).symm hc

end Loops

theorem matchhere_decides (r s : List Char) : ∀ re text : List Char, NUL ∉ re → NUL ∉ text →
      Decides (matchhere (re ++ NUL :: r) (text ++ NUL :: s)) (MatchesHere re text)
  | [], text, _, _ => ⟨true, by rw [List.nil_append, matchhere_nul], by
      simp only [true_iff]
      exact matchesHere_nil text⟩
  | [c], text, hre, htext => by
    have hc : c ≠ NUL := fun h => hre (h ▸ List.mem_cons_self)
    have hstar : NUL ≠ '*' := by decide
    change Decides (matchhere (c :: NUL :: r) (text ++ NUL :: s)) _
    rw [matchhere_cons hc]
    rw [if_neg hstar]
    by_cases hd : c = '$'
    · rw [hd]
      cases text with
      | nil => exact ⟨true, by simp, by simp [matchesHere_dollar]⟩
      | cons t text =>
        have ht : t ≠ NUL := fun h => htext (h ▸ List.mem_cons_self)
        exact ⟨false, by simp [ht], by simp [matchesHere_dollar]⟩
    · have hone := fun text => matchesHere_one [] text
        (by rintro ⟨⟩) (fun _ => hd)
      cases text with
      | nil =>
        refine ⟨false, by simp [hd], ?_⟩
        rw [hone]
        simp
      | cons t text =>
        have ht : t ≠ NUL := fun h => htext (h ▸ List.mem_cons_self)
        simp only [List.cons_append, hd, false_and, if_false]
        by_cases hct : c = '.' ∨ c = t
        · rw [if_pos ⟨ht, hct⟩, matchhere_nul]
          refine ⟨true, rfl, ?_⟩
          rw [hone]
          simp only [true_iff]
          exact ⟨t, text, rfl, hct.imp id Eq.symm, matchesHere_nil text⟩
        · rw [if_neg fun h => hct h.2]
          refine ⟨false, rfl, ?_⟩
          rw [hone]
          simp only [Bool.false_eq_true, false_iff]
          rintro ⟨t', text', heq, hadm, -⟩
          cases heq
          exact hct (hadm.imp id Eq.symm)
  | c :: d :: re, text, hre, htext => by
    have hc : c ≠ NUL := fun h => hre (h ▸ List.mem_cons_self)
    have hd : d ≠ NUL := fun h => hre (h ▸ .tail c List.mem_cons_self)
    have hre' : NUL ∉ d :: re := fun h => hre (.tail c h)
    change Decides (matchhere (c :: d :: (re ++ NUL :: r)) (text ++ NUL :: s)) _
    rw [matchhere_cons hc]
    by_cases hstar : d = '*'
    · rw [if_pos hstar, hstar]
      refine (matchstar_decides c text htext fun u v huv => ?_).congr (matchesHere_star c re text).symm
      refine matchhere_decides r s re v (fun h => hre' (.tail d h)) fun h => htext ?_
      rw [huv]
      exact List.mem_append_right u h
    · rw [if_neg hstar]
      have hone := fun text => matchesHere_one (c := c) (d :: re) text
        (by simpa using hstar) (by rintro ⟨⟩)
      cases text with
      | nil =>
        refine ⟨false, by simp [hd], ?_⟩
        rw [hone]
        simp
      | cons t text =>
        have ht : t ≠ NUL := fun h => htext (h ▸ List.mem_cons_self)
        simp only [List.cons_append, hd, and_false, if_false]
        by_cases hct : c = '.' ∨ c = t
        · rw [if_pos ⟨ht, hct⟩]
          have ih := matchhere_decides r s (d :: re) text hre' fun h => htext (.tail t h)
          refine ih.congr ?_
          rw [hone]
          constructor
          · intro h
            exact ⟨t, text, rfl, hct.imp id Eq.symm, h⟩
          · rintro ⟨t', text', heq, -, h⟩
            cases heq
            exact h
        · rw [if_neg fun h => hct h.2]
          refine ⟨false, rfl, ?_⟩
          rw [hone]
          simp only [Bool.false_eq_true, false_iff]
          rintro ⟨t', text', heq, hadm, -⟩
          cases heq
          exact hct (hadm.imp id Eq.symm)

theorem matches_caret (re text : List Char) : Matches ('^' :: re) text ↔ MatchesHere re text := by
  unfold Matches MatchesHere
  constructor
  · rintro ⟨u, w, v, rfl, hw, hu, hv⟩
    rw [hu rfl, List.nil_append]
    exact ⟨w, v, rfl, hw, hv⟩
  · rintro ⟨w, v, rfl, hw, hv⟩
    exact ⟨[], w, v, rfl, hw, fun _ => rfl, hv⟩

theorem matches_other {re : List Char} (h : re.head? ≠ some '^') (text : List Char) :
    Matches re text ↔ ∃ u v, text = u ++ v ∧ (∀ x ∈ u, Admits '.' x) ∧ MatchesHere re v := by
  have hbody : body re = re := if_neg h
  unfold Matches MatchesHere
  rw [hbody]
  constructor
  · rintro ⟨u, w, v, rfl, hw, -, hv⟩
    exact ⟨u, w ++ v, List.append_assoc u w v, fun _ _ => Or.inl rfl, w, v, rfl, hw, hv⟩
  · rintro ⟨u, -, rfl, -, w, v, rfl, hw, hv⟩
    exact ⟨u, w, v, (List.append_assoc u w v).symm, hw, fun h' => absurd h' h, hv⟩

theorem matchRe_decides (r s : List Char) {re text : List Char} (hre : NUL ∉ re) (htext : NUL ∉ text) :
    Decides (matchRe (re ++ NUL :: r) (text ++ NUL :: s)) (Matches re text) := by
  have hother : re.head? ≠ some '^' →
      Decides (search (matchhere (re ++ NUL :: r)) (text ++ NUL :: s)) (Matches re text) := by
    intro h
    rw [search_eq]
    refine (matchstar_decides '.' text htext fun u v huv => ?_).congr (matches_other h text).symm
    refine matchhere_decides r s re v hre fun hv => htext ?_
    rw [huv]
    exact List.mem_append_right u hv
  cases re with
  | nil =>
    have hnul : NUL ≠ '^' := by decide
    rw [List.nil_append, matchRe, if_neg hnul]
    exact hother (by rintro ⟨⟩)
  | cons c re =>
    rw [List.cons_append, matchRe]
    by_cases hc : c = '^'
    · rw [if_pos hc, hc]
      exact (matchhere_decides r s re text (fun h => hre (.tail c h)) htext).congr
        (matches_caret re text).symm
    · rw [if_neg hc]
      exact hother (by simpa using hc)

/-- The matcher is sound and complete for every pattern and text. It returns for any bytes
after the two terminators, also when there are none to read. -/
theorem match_sound_complete (re text r s : List Char) (hre : NUL ∉ re) (htext : NUL ∉ text) :
    ∃ b, matchRe (re ++ NUL :: r) (text ++ NUL :: s) = some b ∧ (b = true ↔ Matches re text) :=
  matchRe_decides r s hre htext

/-- A pattern with both anchors, a star and a dot. -/
theorem match_sound_complete_anchors :
    ∃ b, matchRe (['^', 'a', '*', '.', '$'] ++ NUL :: []) (['a', 'a', 'b'] ++ NUL :: []) = some b ∧
      (b = true ↔ Matches ['^', 'a', '*', '.', '$'] ['a', 'a', 'b']) :=
  match_sound_complete _ _ [] [] (by decide) (by decide)

example : matchRe "^a*.$\x00".toList "aab\x00".toList = some true := by decide
example : matchRe "*$*\x00".toList "x*$$\x00".toList = some true := by decide

end Xv6.Grep
