import Xv6.Sh.Parser

/-!
# The grammar of the shell

`Derives` is the grammar, each derivation with its command:

    line  := pipe '&'* [';' line]
    pipe  := exec ['|' pipe]
    exec  := '(' line ')' redir* | redir* (word redir*)*
    redir := ('<' | '>' | '>>') word

with at most `MAXARGS - 1` words in an `exec`. The parser is sound: what it returns is
the command of a derivation of the tokens it has read. It is complete: it reads a
derivation to its end, whatever token may follow the nonterminal there (`Follows`). And
it terminates: each procedure has fuel enough for the tokens left.
-/

namespace Xv6.Sh

/-! ## The grammar -/

/-- The operators of redirections. -/
inductive Op where
  | lt
  | gt
  | gtgt
deriving DecidableEq

def Op.tok : Op → Tok
  | .lt => .lt
  | .gt => .gt
  | .gtgt => .gtgt

def redirToks (rs : List (Op × List Char)) : List Tok := rs.flatMap fun r => [r.1.tok, .word r.2]

theorem length_redirToks (rs : List (Op × List Char)) : (redirToks rs).length = 2 * rs.length := by
  induction rs with
  | nil => rfl
  | cons r rs ih =>
    rw [redirToks, List.flatMap_cons, List.length_append, ← redirToks, ih, List.length_cons]
    simp only [List.length_cons, List.length_nil]
    omega

def redirCmds (rs : List (Op × List Char)) : List Redir := rs.map fun r => redirOf (some r.1.tok) r.2

/-- A word with the redirections after it. -/
abbrev Item : Type := List Char × List (Op × List Char)

def itemToks (ws : List Item) : List Tok := ws.flatMap fun w => .word w.1 :: redirToks w.2

theorem length_le_itemToks (ws : List Item) : ws.length ≤ (itemToks ws).length := by
  induction ws with
  | nil => exact Nat.le_refl 0
  | cons w ws ih =>
    rw [itemToks, List.flatMap_cons, List.length_append, ← itemToks, List.length_cons,
      List.length_cons]
    omega

inductive Nonterminal where
  | line
  | pipe
  | exec

/-- A command in the background, `n` times. -/
def backs : Nat → Cmd → Cmd
  | 0, c => c
  | n + 1, c => backs n (.back c)

inductive Derives : Nonterminal → List Tok → Cmd → Prop where
  | line {ts : List Tok} {c : Cmd} (h : Derives .pipe ts c) (n : Nat) :
      Derives .line (ts ++ List.replicate n .amp) (backs n c)
  | lineList {ts us : List Tok} {c d : Cmd} (h : Derives .pipe ts c) (n : Nat)
      (h' : Derives .line us d) :
      Derives .line (ts ++ List.replicate n .amp ++ .semi :: us) (.list (backs n c) d)
  | pipe {ts : List Tok} {c : Cmd} (h : Derives .exec ts c) : Derives .pipe ts c
  | pipeBar {ts us : List Tok} {c d : Cmd} (h : Derives .exec ts c) (h' : Derives .pipe us d) :
      Derives .pipe (ts ++ .bar :: us) (.pipe c d)
  | block {ts : List Tok} {c : Cmd} (h : Derives .line ts c) (rs : List (Op × List Char)) :
      Derives .exec (.lpar :: ts ++ .rpar :: redirToks rs) (c.wrap (redirCmds rs))
  | words (rs : List (Op × List Char)) (ws : List Item) (h : ws.length ≤ MAXARGS - 1) :
      Derives .exec (redirToks rs ++ itemToks ws)
        ((Cmd.exec (ws.map Prod.fst)).wrap (redirCmds rs ++ ws.flatMap fun w => redirCmds w.2))

/-! ## Looking ahead -/

theorem Res.bind_ok {α β : Type} {x : Res α} {f : α → Res β} {b : β} :
    x.bind f = .ok b ↔ ∃ a, x = .ok a ∧ f a = .ok b := by
  cases x with
  | ok a => simp [Res.bind]
  | panics p => simp [Res.bind]
  | fuel => simp [Res.bind]

theorem Res.bind_fuel {α β : Type} {x : Res α} {f : α → Res β} (hx : x ≠ .fuel)
    (hf : ∀ a, x = .ok a → f a ≠ .fuel) : x.bind f ≠ .fuel := by
  cases x with
  | ok a => exact hf a rfl
  | panics p => rintro ⟨⟩
  | fuel => exact absurd rfl hx

theorem head_tokens (cs : List Char) : (tokens cs).head? = next cs := by
  cases h : next cs with
  | none => rw [tokens_none h]; rfl
  | some t => rw [tokens_some h]; rfl

theorem peek_one {c : Char} {t : Tok} (cs : List Char) (hsym : isSymbol c = true)
    (ht : ∀ t', t'.char = some c ↔ t' = t) : (peek [c] cs).1 = true ↔ next cs = some t := by
  rw [peek_fst cs (by simpa using hsym)]
  constructor
  · rintro ⟨t', c', hn, hc, hmem⟩
    rw [List.mem_singleton.mp hmem] at hc
    rw [hn, (ht t').mp hc]
  · intro hn
    exact ⟨t, c, hn, (ht t).mpr rfl, List.mem_singleton_self c⟩

theorem peek_bar (cs : List Char) : (peek ['|'] cs).1 = true ↔ next cs = some .bar :=
  peek_one cs rfl fun t => by cases t <;> simp [Tok.char]

theorem peek_lpar (cs : List Char) : (peek ['('] cs).1 = true ↔ next cs = some .lpar :=
  peek_one cs rfl fun t => by cases t <;> simp [Tok.char]

theorem peek_rpar (cs : List Char) : (peek [')'] cs).1 = true ↔ next cs = some .rpar :=
  peek_one cs rfl fun t => by cases t <;> simp [Tok.char]

theorem peek_semi (cs : List Char) : (peek [';'] cs).1 = true ↔ next cs = some .semi :=
  peek_one cs rfl fun t => by cases t <;> simp [Tok.char]

theorem peek_amp (cs : List Char) : (peek ['&'] cs).1 = true ↔ next cs = some .amp :=
  peek_one cs rfl fun t => by cases t <;> simp [Tok.char]

theorem peek_redir (cs : List Char) : (peek ['<', '>'] cs).1 = true ↔ ∃ op : Op, next cs = some op.tok := by
  rw [peek_fst cs (by simp [isSymbol])]
  constructor
  · rintro ⟨t, c, hn, hc, hmem⟩
    rw [hn]
    simp only [List.mem_cons, List.not_mem_nil, or_false] at hmem
    cases t with
    | lt => exact ⟨.lt, rfl⟩
    | gt => exact ⟨.gt, rfl⟩
    | gtgt => exact ⟨.gtgt, rfl⟩
    | bar | lpar | rpar | semi | amp | word => simp [Tok.char] at hc <;> simp [← hc] at hmem
  · rintro ⟨op, hn⟩
    cases op with
    | lt => exact ⟨_, '<', hn, rfl, by simp⟩
    | gt => exact ⟨_, '>', hn, rfl, by simp⟩
    | gtgt => exact ⟨_, '>', hn, rfl, by simp⟩

/-- The tokens that end the words of a command. -/
def Tok.Stops (t : Tok) : Prop := t = .bar ∨ t = .rpar ∨ t = .amp ∨ t = .semi

theorem peek_stop (cs : List Char) :
    (peek ['|', ')', '&', ';'] cs).1 = true ↔ ∃ t, next cs = some t ∧ t.Stops := by
  rw [peek_fst cs (by simp [isSymbol])]
  constructor
  · rintro ⟨t, c, hn, hc, hmem⟩
    refine ⟨t, hn, ?_⟩
    simp only [List.mem_cons, List.not_mem_nil, or_false] at hmem
    unfold Tok.Stops
    cases t with
    | bar | rpar | amp | semi => simp
    | lpar | lt | gt | gtgt | word => simp [Tok.char] at hc <;> simp [← hc] at hmem
  · rintro ⟨t, hn, rfl | rfl | rfl | rfl⟩
    · exact ⟨_, '|', hn, rfl, by simp⟩
    · exact ⟨_, ')', hn, rfl, by simp⟩
    · exact ⟨_, '&', hn, rfl, by simp⟩
    · exact ⟨_, ';', hn, rfl, by simp⟩

/-! ## Redirections -/

theorem parseredirs_sound :
    ∀ (n : Nat) {cs cs' : List Char} {rs : List Redir}, parseredirs n cs = .ok (rs, cs') →
      ∃ l, rs = redirCmds l ∧ tokens cs = redirToks l ++ tokens cs'
  | 0, _, _, _, h => by cases h
  | n + 1, cs, cs', rs, h => by
    rw [parseredirs] at h
    split at h
    · rename_i hpeek
      obtain ⟨op, hop⟩ := (peek_redir cs).mp hpeek
      rw [peek_snd, gettoken_skip, gettoken_eq, hop] at h
      dsimp only at h
      split at h
      · rename_i f cs₂ hget
        rw [gettoken_eq, Prod.mk.injEq] at hget
        obtain ⟨⟨rs', cs₃⟩, hrest, hok⟩ := Res.bind_ok.mp h
        cases hok
        obtain ⟨l, hl, htoks⟩ := parseredirs_sound n hrest
        refine ⟨(op, f) :: l, ?_, ?_⟩
        · rw [hl]
          rfl
        · rw [tokens_some hop, tokens_some hget.1, hget.2, htoks]
          rfl
      · cases h
    · cases h
      exact ⟨[], rfl, by rw [peek_snd, tokens_skip]; rfl⟩

/-- The token that follows is no operator of a redirection. -/
def NoRedir (us : List Tok) : Prop := ∀ op : Op, us.head? ≠ some op.tok

theorem parseredirs_complete : ∀ (l : List (Op × List Char)) {n : Nat} {cs : List Char} {us : List Tok},
      tokens cs = redirToks l ++ us → NoRedir us → l.length < n →
      ∃ cs', parseredirs n cs = .ok (redirCmds l, cs') ∧ tokens cs' = us
  | _, 0, _, _, _, _, hn => by omega
  | [], n + 1, cs, us, htoks, hus, _ => by
    have hno : ¬ (peek ['<', '>'] cs).1 = true := by
      rw [peek_redir]
      rintro ⟨op, hop⟩
      rw [← head_tokens, htoks] at hop
      exact hus op hop
    refine ⟨skip cs, ?_, by rw [tokens_skip]; exact htoks⟩
    rw [parseredirs, if_neg hno, peek_snd]
    rfl
  | (op, f) :: l, n + 1, cs, us, htoks, hus, hn => by
    obtain ⟨hop, htoks₁⟩ := next_of_tokens htoks
    obtain ⟨hf, htoks₂⟩ := next_of_tokens htoks₁
    have hpeek : (peek ['<', '>'] cs).1 = true := (peek_redir cs).mpr ⟨op, hop⟩
    obtain ⟨cs', hrest, hend⟩ := parseredirs_complete l htoks₂ hus (Nat.lt_of_succ_lt_succ hn)
    refine ⟨cs', ?_, hend⟩
    rw [parseredirs, if_pos hpeek, peek_snd, gettoken_skip, gettoken_eq, hop]
    dsimp only
    rw [gettoken_eq, hf]
    dsimp only
    rw [hrest]
    rfl

theorem parseredirs_fuel : ∀ (n : Nat) (cs : List Char), cs.length < n → parseredirs n cs ≠ .fuel
  | 0, _, h => by omega
  | n + 1, cs, h => by
    rw [parseredirs]
    split
    · rename_i hpeek
      obtain ⟨op, hop⟩ := (peek_redir cs).mp hpeek
      have h₁ := rest_lt hop
      rw [peek_snd, gettoken_skip, gettoken_eq]
      dsimp only
      split
      · rename_i f cs₂ hget
        rw [gettoken_eq, Prod.mk.injEq] at hget
        have h₂ := rest_lt hget.1
        rw [hget.2] at h₂
        refine Res.bind_fuel (parseredirs_fuel n cs₂ (by omega)) ?_
        rintro a - ⟨⟩
      · rintro ⟨⟩
    · rintro ⟨⟩

/-! ## Words -/

/-- The string is at its end, or at a token that ends the words of a command. -/
def AtStop (us : List Tok) : Prop := ∀ t, us.head? = some t → t.Stops

variable {us : List Tok}

theorem AtStop.noRedir (h : AtStop us) : NoRedir us := by
  intro op hop
  have := h _ hop
  cases op <;> simp [Op.tok, Tok.Stops] at this

theorem itemToks_noRedir (ws : List Item) (h : AtStop us) : NoRedir (itemToks ws ++ us) := by
  cases ws with
  | nil => exact h.noRedir
  | cons w ws =>
    intro op hop
    cases op <;> simp [itemToks, Op.tok] at hop

theorem parseargs_sound :
    ∀ (n : Nat) {argc : Nat} {cs cs' : List Char} {ws : List (List Char)} {rs : List Redir},
      parseargs n argc cs = .ok (ws, rs, cs') → argc < MAXARGS →
      ∃ l : List Item, ws = l.map Prod.fst ∧ rs = (l.flatMap fun w => redirCmds w.2) ∧
        tokens cs = itemToks l ++ tokens cs' ∧ argc + l.length < MAXARGS
  | 0, _, _, _, _, _, h, _ => by cases h
  | n + 1, argc, cs, cs', ws, rs, h, hargc => by
    rw [parseargs] at h
    split at h
    · cases h
      exact ⟨[], rfl, rfl, by rw [peek_snd, tokens_skip]; rfl, hargc⟩
    · rw [peek_snd, gettoken_skip, gettoken_eq] at h
      split at h
      · rename_i cs₁ hget
        rw [Prod.mk.injEq] at hget
        cases h
        refine ⟨[], rfl, rfl, ?_, hargc⟩
        rw [tokens_none hget.1, ← hget.2, itemToks]
        have hskip := next_none.mp hget.1
        rw [tokens_none]
        · rfl
        · rw [rest, gettoken, hskip]
          rfl
      · rename_i w cs₁ hget
        rw [Prod.mk.injEq] at hget
        split at h
        · cases h
        · rename_i hmax
          obtain ⟨⟨rs₁, cs₂⟩, hredirs, hrest⟩ := Res.bind_ok.mp h
          obtain ⟨⟨ws₂, rs₂, cs₃⟩, hargs, hok⟩ := Res.bind_ok.mp hrest
          cases hok
          obtain ⟨l₁, hl₁, htoks₁⟩ := parseredirs_sound _ hredirs
          obtain ⟨l₂, hws, hrs, htoks₂, hlen⟩ := parseargs_sound n hargs (by omega)
          refine ⟨(w, l₁) :: l₂, ?_, ?_, ?_, ?_⟩
          · rw [List.map_cons, hws]
          · rw [List.flatMap_cons, hrs]
            dsimp only
            rw [hl₁]
          · rw [tokens_some hget.1, hget.2, htoks₁]
            dsimp only at htoks₂
            rw [htoks₂]
            simp [itemToks]
          · rw [List.length_cons]
            omega
      · cases h

theorem parseargs_complete : ∀ (l : List Item) {n argc : Nat} {cs : List Char} {us : List Tok},
      tokens cs = itemToks l ++ us → AtStop us → l.length < n → argc + l.length < MAXARGS →
      ∃ cs', parseargs n argc cs = .ok (l.map Prod.fst, (l.flatMap fun w => redirCmds w.2), cs') ∧
        tokens cs' = us
  | _, 0, _, _, _, _, _, hn, _ => by omega
  | [], n + 1, argc, cs, us, htoks, hus, _, _ => by
    rw [parseargs]
    by_cases hpeek : (peek ['|', ')', '&', ';'] cs).1 = true
    · rw [if_pos hpeek, peek_snd]
      exact ⟨skip cs, rfl, by rw [tokens_skip]; exact htoks⟩
    · -- no token at all is left
      have hnone : next cs = none := by
        cases hn : next cs with
        | none => rfl
        | some t =>
          refine absurd ((peek_stop cs).mpr ⟨t, hn, hus t ?_⟩) hpeek
          rw [← hn, ← head_tokens, htoks]
          rfl
      rw [if_neg hpeek, peek_snd, gettoken_skip, gettoken_eq, hnone]
      refine ⟨rest cs, rfl, ?_⟩
      rw [tokens_none hnone] at htoks
      rw [show us = [] from htoks.symm, tokens_none]
      rw [next_none, rest, gettoken, next_none.mp hnone]
      rfl
  | (w, rs) :: l, n + 1, argc, cs, us, htoks, hus, hn, hmax => by
    have htoks' : tokens cs = .word w :: (redirToks rs ++ (itemToks l ++ us)) := by
      rw [htoks]
      simp [itemToks]
    obtain ⟨hw, htoks₁⟩ := next_of_tokens htoks'
    have hpeek : ¬ (peek ['|', ')', '&', ';'] cs).1 = true := by
      rw [peek_stop]
      rintro ⟨t, ht, hstop⟩
      rw [hw] at ht
      cases ht
      simp [Tok.Stops] at hstop
    rw [List.length_cons] at hn hmax
    have hlen : rs.length < (rest cs).length + 1 := by
      have := length_tokens_le (rest cs)
      rw [htoks₁, List.length_append, length_redirToks] at this
      omega
    obtain ⟨cs₁, hredirs, htoks₂⟩ :=
      parseredirs_complete rs htoks₁ (itemToks_noRedir l hus) hlen
    obtain ⟨cs₂, hargs, hend⟩ := @parseargs_complete l n (argc + 1) _ _ htoks₂ hus
      (by omega) (by omega)
    refine ⟨cs₂, ?_, hend⟩
    rw [parseargs]
    rw [if_neg hpeek, peek_snd, gettoken_skip, gettoken_eq, hw]
    dsimp only
    rw [if_neg (by omega), hredirs]
    dsimp only [Res.bind]
    rw [hargs]
    rfl

theorem parseargs_fuel : ∀ (n : Nat) {argc : Nat} (cs : List Char), (tokens cs).length < n →
      parseargs n argc cs ≠ .fuel
  | 0, _, _, h => by omega
  | n + 1, argc, cs, h => by
    rw [parseargs]
    split
    · rintro ⟨⟩
    · rw [peek_snd, gettoken_skip, gettoken_eq]
      split
      · rintro ⟨⟩
      · rename_i w cs₁ hget
        rw [Prod.mk.injEq] at hget
        rw [tokens_some hget.1, hget.2, List.length_cons] at h
        split
        · rintro ⟨⟩
        · refine Res.bind_fuel (parseredirs_fuel _ _ (Nat.lt_succ_self _)) fun x hx => ?_
          obtain ⟨l, -, htoks⟩ := parseredirs_sound _ hx
          rw [htoks, List.length_append] at h
          refine Res.bind_fuel (parseargs_fuel n x.2 (by omega)) ?_
          rintro a - ⟨⟩
      · rintro ⟨⟩

/-! ## Background commands -/

theorem parsebacks_sound :
    ∀ (n : Nat) {c c' : Cmd} {cs cs' : List Char}, parsebacks n c cs = .ok (c', cs') →
      ∃ m, c' = backs m c ∧ tokens cs = List.replicate m .amp ++ tokens cs'
  | 0, _, _, _, _, h => by cases h
  | n + 1, c, c', cs, cs', h => by
    rw [parsebacks] at h
    split at h
    · rename_i hpeek
      have hamp := (peek_amp cs).mp hpeek
      rw [peek_snd, gettoken_skip, gettoken_eq] at h
      obtain ⟨m, hm, htoks⟩ := parsebacks_sound n h
      refine ⟨m + 1, hm, ?_⟩
      rw [tokens_some hamp, htoks]
      rfl
    · cases h
      exact ⟨0, rfl, by rw [peek_snd, tokens_skip]; rfl⟩

theorem parsebacks_complete : ∀ (m : Nat) {n : Nat} {c : Cmd} {cs : List Char} {us : List Tok},
      tokens cs = List.replicate m .amp ++ us → us.head? ≠ some .amp → m < n →
      ∃ cs', parsebacks n c cs = .ok (backs m c, cs') ∧ tokens cs' = us
  | _, 0, _, _, _, _, _, hn => by omega
  | 0, n + 1, c, cs, us, htoks, hus, _ => by
    have hno : ¬ (peek ['&'] cs).1 = true := by
      rw [peek_amp, ← head_tokens, htoks]
      exact hus
    rw [parsebacks, if_neg hno, peek_snd]
    exact ⟨skip cs, rfl, by rw [tokens_skip]; exact htoks⟩
  | m + 1, n + 1, c, cs, us, htoks, hus, hn => by
    obtain ⟨hamp, htoks₁⟩ := next_of_tokens htoks
    have hpeek : (peek ['&'] cs).1 = true := (peek_amp cs).mpr hamp
    rw [parsebacks, if_pos hpeek, peek_snd, gettoken_skip, gettoken_eq]
    exact parsebacks_complete m htoks₁ hus (Nat.lt_of_succ_lt_succ hn)

theorem parsebacks_fuel : ∀ (n : Nat) {c : Cmd} (cs : List Char), cs.length < n → parsebacks n c cs ≠ .fuel
  | 0, _, _, h => by omega
  | n + 1, c, cs, h => by
    rw [parsebacks]
    split
    · rename_i hpeek
      have hlt := rest_lt ((peek_amp cs).mp hpeek)
      rw [peek_snd, gettoken_skip, gettoken_eq]
      exact parsebacks_fuel n _ (by dsimp only; omega)
    · rintro ⟨⟩

/-! ## Soundness -/

/-- What a procedure returns is the command of a derivation of the tokens it has read. -/
def Sound (nt : Nonterminal) (parse : List Char → Res (Cmd × List Char)) : Prop :=
  ∀ cs c cs', parse cs = .ok (c, cs') → ∃ ts, Derives nt ts c ∧ tokens cs = ts ++ tokens cs'

variable {n : Nat}

theorem parseline_sound (hpipe : Sound .pipe (parsepipe n))
    (hline : Sound .line (parseline n)) : Sound .line (parseline (n + 1)) := by
  intro cs c cs' h
  rw [parseline] at h
  obtain ⟨⟨c₁, cs₁⟩, h₁, h⟩ := Res.bind_ok.mp h
  obtain ⟨⟨c₂, cs₂⟩, h₂, h⟩ := Res.bind_ok.mp h
  obtain ⟨ts, hts, htoks₁⟩ := hpipe _ _ _ h₁
  obtain ⟨m, rfl, htoks₂⟩ := parsebacks_sound _ h₂
  dsimp only at h htoks₂
  split at h
  · rename_i hpeek
    have hsemi := (peek_semi cs₂).mp hpeek
    rw [peek_snd, gettoken_skip, gettoken_eq] at h
    obtain ⟨⟨c₃, cs₃⟩, h₃, hok⟩ := Res.bind_ok.mp h
    cases hok
    obtain ⟨us, hus, htoks₃⟩ := hline _ _ _ h₃
    refine ⟨_, .lineList hts m hus, ?_⟩
    rw [htoks₁, htoks₂, tokens_some hsemi, htoks₃]
    simp
  · cases h
    refine ⟨_, .line hts m, ?_⟩
    rw [htoks₁, htoks₂, peek_snd, tokens_skip, List.append_assoc]

theorem parsepipe_sound (hexec : Sound .exec (parseexec n))
    (hpipe : Sound .pipe (parsepipe n)) : Sound .pipe (parsepipe (n + 1)) := by
  intro cs c cs' h
  rw [parsepipe] at h
  obtain ⟨⟨c₁, cs₁⟩, h₁, h⟩ := Res.bind_ok.mp h
  obtain ⟨ts, hts, htoks₁⟩ := hexec _ _ _ h₁
  dsimp only at h
  split at h
  · rename_i hpeek
    have hbar := (peek_bar cs₁).mp hpeek
    rw [peek_snd, gettoken_skip, gettoken_eq] at h
    obtain ⟨⟨c₂, cs₂⟩, h₂, hok⟩ := Res.bind_ok.mp h
    cases hok
    obtain ⟨us, hus, htoks₂⟩ := hpipe _ _ _ h₂
    refine ⟨_, .pipeBar hts hus, ?_⟩
    rw [htoks₁, tokens_some hbar, htoks₂]
    simp
  · cases h
    exact ⟨ts, .pipe hts, by rw [htoks₁, peek_snd, tokens_skip]⟩

theorem parseexec_sound (hblock : Sound .exec (parseblock n)) : Sound .exec (parseexec (n + 1)) := by
  intro cs c cs' h
  rw [parseexec] at h
  split at h
  · rw [peek_snd] at h
    obtain ⟨ts, hts, htoks⟩ := hblock _ _ _ h
    exact ⟨ts, hts, by rw [← tokens_skip cs, htoks]⟩
  · rw [peek_snd] at h
    obtain ⟨⟨rs₁, cs₁⟩, h₁, h⟩ := Res.bind_ok.mp h
    obtain ⟨⟨ws, rs₂, cs₂⟩, h₂, hok⟩ := Res.bind_ok.mp h
    cases hok
    obtain ⟨l₁, rfl, htoks₁⟩ := parseredirs_sound _ h₁
    obtain ⟨l₂, rfl, rfl, htoks₂, hlen⟩ := parseargs_sound _ h₂ (by decide)
    refine ⟨_, .words l₁ l₂ (by omega), ?_⟩
    rw [← tokens_skip cs, htoks₁, htoks₂, List.append_assoc]

theorem parseblock_sound (hline : Sound .line (parseline n)) : Sound .exec (parseblock (n + 1)) := by
  intro cs c cs' h
  rw [parseblock] at h
  split at h
  · rename_i hpeek
    have hlpar := (peek_lpar cs).mp hpeek
    rw [peek_snd, gettoken_skip, gettoken_eq] at h
    obtain ⟨⟨c₁, cs₁⟩, h₁, h⟩ := Res.bind_ok.mp h
    obtain ⟨ts, hts, htoks₁⟩ := hline _ _ _ h₁
    dsimp only at h
    split at h
    · rename_i hpeek'
      have hrpar := (peek_rpar cs₁).mp hpeek'
      rw [peek_snd, gettoken_skip, gettoken_eq] at h
      obtain ⟨⟨rs, cs₂⟩, h₂, hok⟩ := Res.bind_ok.mp h
      cases hok
      obtain ⟨l, rfl, htoks₂⟩ := parseredirs_sound _ h₂
      refine ⟨_, .block hts l, ?_⟩
      rw [tokens_some hlpar, htoks₁, tokens_some hrpar, htoks₂]
      simp
    · cases h
  · cases h

theorem parse_sound (n : Nat) :
    Sound .line (parseline n) ∧ Sound .pipe (parsepipe n) ∧ Sound .exec (parseexec n) ∧
      Sound .exec (parseblock n) := by
  induction n with
  | zero =>
    refine ⟨?_, ?_, ?_, ?_⟩ <;> rintro cs c cs' ⟨⟩
  | succ n ih =>
    obtain ⟨hline, hpipe, hexec, hblock⟩ := ih
    exact ⟨parseline_sound hpipe hline, parsepipe_sound hexec hpipe, parseexec_sound hblock,
      parseblock_sound hline⟩

/-! ## Termination -/

/-- The fuel a nonterminal takes beyond four for each token. -/
def Nonterminal.rank : Nonterminal → Nat
  | .line => 4
  | .pipe => 3
  | .exec => 2

def Ends (rank n : Nat) (parse : List Char → Res (Cmd × List Char)) : Prop :=
  ∀ cs, 4 * (tokens cs).length + rank ≤ n → parse cs ≠ .fuel

theorem parse_ends (n : Nat) : Ends 4 n (parseline n) ∧ Ends 3 n (parsepipe n) ∧ Ends 2 n (parseexec n) ∧
      Ends 1 n (parseblock n) := by
  induction n with
  | zero =>
    refine ⟨?_, ?_, ?_, ?_⟩ <;> intro cs h <;> omega
  | succ n ih =>
    obtain ⟨hline, hpipe, hexec, hblock⟩ := ih
    obtain ⟨-, sound_pipe, sound_exec, -⟩ := parse_sound n
    refine ⟨?_, ?_, ?_, ?_⟩
    · intro cs h
      rw [parseline]
      refine Res.bind_fuel (hpipe cs (by omega)) fun x hx => ?_
      refine Res.bind_fuel (parsebacks_fuel _ _ (Nat.lt_succ_self _)) fun y hy => ?_
      split
      · rename_i hpeek
        obtain ⟨ts, -, htoks₁⟩ := sound_pipe _ _ _ hx
        obtain ⟨m, -, htoks₂⟩ := parsebacks_sound _ hy
        rw [htoks₁, htoks₂, tokens_some ((peek_semi _).mp hpeek)] at h
        simp only [List.length_append, List.length_cons] at h
        rw [peek_snd, gettoken_skip, gettoken_eq]
        refine Res.bind_fuel (hline _ (by dsimp only; omega)) ?_
        rintro a - ⟨⟩
      · rintro ⟨⟩
    · intro cs h
      rw [parsepipe]
      refine Res.bind_fuel (hexec cs (by omega)) fun x hx => ?_
      split
      · rename_i hpeek
        obtain ⟨ts, -, htoks⟩ := sound_exec _ _ _ hx
        rw [htoks, tokens_some ((peek_bar _).mp hpeek)] at h
        simp only [List.length_append, List.length_cons] at h
        rw [peek_snd, gettoken_skip, gettoken_eq]
        refine Res.bind_fuel (hpipe _ (by dsimp only; omega)) ?_
        rintro a - ⟨⟩
      · rintro ⟨⟩
    · intro cs h
      rw [parseexec, peek_snd]
      split
      · exact hblock _ (by rw [tokens_skip]; omega)
      · refine Res.bind_fuel (parseredirs_fuel _ _ (Nat.lt_succ_self _)) fun x _ => ?_
        refine Res.bind_fuel (parseargs_fuel _ _ (Nat.lt_succ_of_le (length_tokens_le _))) ?_
        rintro a - ⟨⟩
    · intro cs h
      rw [parseblock]
      split
      · rename_i hpeek
        rw [tokens_some ((peek_lpar cs).mp hpeek), List.length_cons] at h
        rw [peek_snd, gettoken_skip, gettoken_eq]
        refine Res.bind_fuel (hline _ (by dsimp only; omega)) fun x _ => ?_
        split
        · refine Res.bind_fuel (parseredirs_fuel _ _ (Nat.lt_succ_self _)) ?_
          rintro a - ⟨⟩
        · rintro ⟨⟩
      · rintro ⟨⟩

/-! ## Completeness -/

def Nonterminal.Follows : Nonterminal → Tok → Prop
  | .line, t => t = .rpar
  | .pipe, t => t = .rpar ∨ t = .amp ∨ t = .semi
  | .exec, t => t.Stops

def Nonterminal.parse : Nonterminal → Nat → List Char → Res (Cmd × List Char)
  | .line => parseline
  | .pipe => parsepipe
  | .exec => parseexec

/-- A procedure reads the tokens and returns the command, and stands where they end. -/
def Reads (nt : Nonterminal) (ts : List Tok) (c : Cmd) : Prop :=
  ∀ n cs us, tokens cs = ts ++ us → (∀ t, us.head? = some t → nt.Follows t) →
    4 * (tokens cs).length + nt.rank ≤ n → ∃ cs', nt.parse n cs = .ok (c, cs') ∧ tokens cs' = us

variable {ts : List Tok} {c : Cmd}

theorem Reads.backs (h : Reads .pipe ts c) (m : Nat)
    {cs : List Char} (htoks : tokens cs = ts ++ (List.replicate m .amp ++ us))
    (hus : ∀ t, us.head? = some t → t = .rpar ∨ t = .semi) (hn : 4 * (tokens cs).length + 3 ≤ n) :
    ∃ c₁ cs₁ cs₂, parsepipe n cs = .ok (c₁, cs₁) ∧
      parsebacks (cs₁.length + 1) c₁ cs₁ = .ok (Sh.backs m c, cs₂) ∧ tokens cs₂ = us := by
  have hfollow : ∀ t, (List.replicate m Tok.amp ++ us).head? = some t →
      Nonterminal.pipe.Follows t := by
    intro t ht
    cases m with
    | zero => exact (hus t ht).imp id Or.inr
    | succ m =>
      rw [List.replicate_succ] at ht
      cases ht
      exact Or.inr (Or.inl rfl)
  obtain ⟨cs₁, h₁, htoks₁⟩ := h n cs _ htoks hfollow hn
  have hlen : m < cs₁.length + 1 := by
    have := length_tokens_le cs₁
    rw [htoks₁, List.length_append, List.length_replicate] at this
    omega
  have hamp : us.head? ≠ some .amp := by
    intro hamp
    rcases hus _ hamp with h | h <;> cases h
  obtain ⟨cs₂, h₂, htoks₂⟩ := parsebacks_complete m (c := c) htoks₁ hamp hlen
  exact ⟨c, cs₁, cs₂, h₁, h₂, htoks₂⟩

theorem Reads.line (h : Reads .pipe ts c) (m : Nat) :
    Reads .line (ts ++ List.replicate m .amp) (Sh.backs m c) := by
  intro n cs us htoks hus hn
  cases n with
  | zero => simp only [Nonterminal.rank] at hn; omega
  | succ n =>
    rw [List.append_assoc] at htoks
    obtain ⟨c₁, cs₁, cs₂, h₁, h₂, htoks₂⟩ :=
      h.backs m htoks (fun t ht => Or.inl (hus t ht)) (Nat.le_of_succ_le_succ hn)
    have hsemi : ¬ (peek [';'] cs₂).1 = true := by
      rw [peek_semi, ← head_tokens, htoks₂]
      intro hsemi
      cases hus _ hsemi
    refine ⟨skip cs₂, ?_, by rw [tokens_skip, htoks₂]⟩
    rw [Nonterminal.parse, parseline, h₁]
    dsimp only [Res.bind]
    rw [h₂]
    dsimp only
    rw [if_neg hsemi, peek_snd]

theorem Reads.lineList {d : Cmd} (h : Reads .pipe ts c) (m : Nat) (h' : Reads .line us d) :
    Reads .line (ts ++ List.replicate m .amp ++ .semi :: us) (.list (Sh.backs m c) d) := by
  intro n cs vs htoks hvs hn
  cases n with
  | zero => simp only [Nonterminal.rank] at hn; omega
  | succ n =>
    rw [List.append_assoc, List.append_assoc] at htoks
    have hfollow : ∀ t, (Tok.semi :: us ++ vs).head? = some t → t = .rpar ∨ t = .semi := by
      intro t ht
      cases ht
      exact Or.inr rfl
    obtain ⟨c₁, cs₁, cs₂, h₁, h₂, htoks₂⟩ :=
      h.backs m htoks hfollow (Nat.le_of_succ_le_succ hn)
    obtain ⟨hsemi, htoks₃⟩ := next_of_tokens htoks₂
    have hfuel : 4 * (tokens (rest cs₂)).length + 4 ≤ n := by
      have hlen := congrArg List.length htoks
      simp only [List.length_append, List.length_cons] at hlen
      rw [htoks₃, show us.append vs = us ++ vs from rfl, List.length_append]
      simp only [Nonterminal.rank] at hn
      omega
    obtain ⟨cs₃, h₃, htoks₄⟩ := h' n (rest cs₂) vs htoks₃ hvs hfuel
    refine ⟨cs₃, ?_, htoks₄⟩
    rw [Nonterminal.parse, parseline, h₁]
    dsimp only [Res.bind]
    rw [h₂]
    dsimp only
    rw [if_pos ((peek_semi cs₂).mpr hsemi), peek_snd, gettoken_skip, gettoken_eq]
    dsimp only
    rw [show parseline n (rest cs₂) = .ok (d, cs₃) from h₃]

theorem Reads.pipe (h : Reads .exec ts c) : Reads .pipe ts c := by
  intro n cs us htoks hus hn
  cases n with
  | zero => simp only [Nonterminal.rank] at hn; omega
  | succ n =>
    obtain ⟨cs₁, h₁, htoks₁⟩ :=
      h n cs us htoks (fun t ht => Or.inr (hus t ht)) (Nat.le_of_succ_le_succ hn)
    have hbar : ¬ (peek ['|'] cs₁).1 = true := by
      rw [peek_bar, ← head_tokens, htoks₁]
      intro hbar
      rcases hus _ hbar with h | h | h <;> cases h
    refine ⟨skip cs₁, ?_, by rw [tokens_skip, htoks₁]⟩
    rw [Nonterminal.parse, parsepipe, show parseexec n cs = .ok (c, cs₁) from h₁]
    dsimp only [Res.bind]
    rw [if_neg hbar, peek_snd]

theorem Reads.pipeBar {d : Cmd} (h : Reads .exec ts c)
    (h' : Reads .pipe us d) : Reads .pipe (ts ++ .bar :: us) (.pipe c d) := by
  intro n cs vs htoks hvs hn
  cases n with
  | zero => simp only [Nonterminal.rank] at hn; omega
  | succ n =>
    rw [List.append_assoc] at htoks
    have hfollow : ∀ t, (Tok.bar :: us ++ vs).head? = some t → Nonterminal.exec.Follows t := by
      intro t ht
      cases ht
      exact Or.inl rfl
    obtain ⟨cs₁, h₁, htoks₁⟩ := h n cs _ htoks hfollow (Nat.le_of_succ_le_succ hn)
    obtain ⟨hbar, htoks₂⟩ := next_of_tokens htoks₁
    have hfuel : 4 * (tokens (rest cs₁)).length + 3 ≤ n := by
      have hlen := congrArg List.length htoks
      simp only [List.length_append, List.length_cons] at hlen
      rw [htoks₂, show us.append vs = us ++ vs from rfl, List.length_append]
      simp only [Nonterminal.rank] at hn
      omega
    obtain ⟨cs₂, h₂, htoks₃⟩ := h' n (rest cs₁) vs htoks₂ hvs hfuel
    refine ⟨cs₂, ?_, htoks₃⟩
    rw [Nonterminal.parse, parsepipe, show parseexec n cs = .ok (c, cs₁) from h₁]
    dsimp only [Res.bind]
    rw [if_pos ((peek_bar cs₁).mpr hbar), peek_snd, gettoken_skip, gettoken_eq]
    dsimp only
    rw [show parsepipe n (rest cs₁) = .ok (d, cs₂) from h₂]

theorem parseredirs_reads (l : List (Op × List Char)) {cs : List Char}
    (htoks : tokens cs = redirToks l ++ us) (hus : NoRedir us) :
    ∃ cs', parseredirs (cs.length + 1) cs = .ok (redirCmds l, cs') ∧ tokens cs' = us := by
  refine parseredirs_complete l htoks hus ?_
  have := length_tokens_le cs
  rw [htoks, List.length_append, length_redirToks] at this
  omega

theorem Reads.block (h : Reads .line ts c) (l : List (Op × List Char)) :
    Reads .exec (.lpar :: ts ++ .rpar :: redirToks l) (c.wrap (redirCmds l)) := by
  intro n cs us htoks hus hn
  obtain ⟨n, rfl⟩ : ∃ k, n = k + 2 := ⟨n - 2, by simp only [Nonterminal.rank] at hn; omega⟩
  rw [List.cons_append, List.cons_append, List.append_assoc] at htoks
  obtain ⟨hlpar, htoks₁⟩ := next_of_tokens htoks
  have hfollow : ∀ t, (Tok.rpar :: redirToks l ++ us).head? = some t →
      Nonterminal.line.Follows t := by
    intro t ht
    cases ht
    rfl
  have hfuel : 4 * (tokens (rest cs)).length + 4 ≤ n := by
    rw [tokens_some hlpar, List.length_cons] at hn
    simp only [Nonterminal.rank] at hn
    omega
  obtain ⟨cs₁, h₁, htoks₂⟩ := h n (rest cs) _ htoks₁ hfollow hfuel
  obtain ⟨hrpar, htoks₃⟩ := next_of_tokens htoks₂
  obtain ⟨cs₂, h₂, htoks₄⟩ := parseredirs_reads l htoks₃ (AtStop.noRedir hus)
  have hlpar' : next (skip cs) = some .lpar := by rw [next_skip, hlpar]
  refine ⟨cs₂, ?_, htoks₄⟩
  rw [Nonterminal.parse, parseexec, if_pos ((peek_lpar cs).mpr hlpar), peek_snd, parseblock,
    if_pos ((peek_lpar _).mpr hlpar'), peek_snd, gettoken_skip, gettoken_skip, gettoken_eq]
  dsimp only
  rw [show parseline n (rest cs) = .ok (c, cs₁) from h₁]
  dsimp only [Res.bind]
  rw [if_pos ((peek_rpar cs₁).mpr hrpar), peek_snd, gettoken_skip, gettoken_eq]
  dsimp only
  rw [h₂]

theorem Reads.words (l : List (Op × List Char)) (ws : List Item) (h : ws.length ≤ MAXARGS - 1) :
    Reads .exec (redirToks l ++ itemToks ws)
      ((Cmd.exec (ws.map Prod.fst)).wrap (redirCmds l ++ ws.flatMap fun w => redirCmds w.2)) := by
  intro n cs us htoks hus hn
  cases n with
  | zero => simp only [Nonterminal.rank] at hn; omega
  | succ n =>
    rw [List.append_assoc] at htoks
    have hlpar : ¬ (peek ['('] cs).1 = true := by
      rw [peek_lpar, ← head_tokens, htoks]
      intro hlpar
      cases l with
      | cons r l => cases r with | mk op f => cases op <;> cases hlpar
      | nil =>
        cases ws with
        | cons w ws => cases hlpar
        | nil => simpa [Nonterminal.Follows, Tok.Stops] using hus _ hlpar
    rw [← tokens_skip] at htoks
    obtain ⟨cs₁, h₁, htoks₁⟩ := parseredirs_reads l htoks (itemToks_noRedir ws hus)
    have hlen : ws.length < cs₁.length + 1 := by
      have := length_tokens_le cs₁
      have := length_le_itemToks ws
      rw [htoks₁, List.length_append] at *
      omega
    obtain ⟨cs₂, h₂, htoks₂⟩ := @parseargs_complete ws _ 0 _ _ htoks₁ hus hlen
      (by simp only [MAXARGS] at h ⊢; omega)
    refine ⟨cs₂, ?_, htoks₂⟩
    rw [Nonterminal.parse, parseexec, if_neg hlpar, peek_snd, h₁]
    dsimp only [Res.bind]
    rw [h₂]

theorem Derives.reads {nt : Nonterminal} (h : Derives nt ts c) : Reads nt ts c := by
  induction h with
  | line _ m ih => exact ih.line m
  | lineList _ m _ ih ih' => exact ih.lineList m ih'
  | pipe _ ih => exact ih.pipe
  | pipeBar _ _ ih ih' => exact ih.pipeBar ih'
  | block _ l ih => exact ih.block l
  | words l ws h => exact Reads.words l ws h

/-! ## The command line -/

/-- **The parser and the grammar.**  `parsecmd` accepts a string exactly when its tokens derive
from `line`, with the command of the derivation, and it ends on every string. -/
theorem parsecmd_iff (s : List Char) :
    (∀ c, parsecmd s = .ok c ↔ Derives .line (tokens s) c) ∧ parsecmd s ≠ .fuel := by
  have hfuel : 4 * (tokens s).length + 4 ≤ 4 * s.length + 4 := by
    have := length_tokens_le s
    omega
  refine ⟨fun c => ⟨fun h => ?_, fun h => ?_⟩, ?_⟩
  · rw [parsecmd] at h
    obtain ⟨⟨c₁, cs₁⟩, h₁, hend⟩ := Res.bind_ok.mp h
    obtain ⟨ts, hts, htoks⟩ := (parse_sound _).1 _ _ _ h₁
    dsimp only at hend
    split at hend
    · rename_i hnil
      cases hend
      rw [peek_snd, ← next_none] at hnil
      rw [htoks, tokens_none hnil, List.append_nil]
      exact hts
    · cases hend
  · obtain ⟨cs', h₁, htoks⟩ := h.reads _ s [] (by rw [List.append_nil]) (by simp) hfuel
    rw [parsecmd, show parseline _ s = .ok (c, cs') from h₁]
    have hnil : (peek [] cs').2 = [] := by
      rw [peek_snd, ← next_none, ← head_tokens, htoks]
      rfl
    dsimp only [Res.bind]
    rw [if_pos hnil]
  · rw [parsecmd]
    refine Res.bind_fuel ((parse_ends _).1 s hfuel) fun x _ => ?_
    split
    · rintro ⟨⟩
    · rintro ⟨⟩

end Xv6.Sh
