import Xv6.Param
import Mathlib.Data.List.TakeWhile
import Mathlib.Tactic.Common

/-!
# The parser of the shell

`gettoken`, `peek` and the five procedures of `sh.c`. The pointer `*ps` is the list of
the characters from it to the end `es` of the string, and a word is the list of its
characters, which `nulterminate` makes a string.

The procedures call each other to any depth, and `fuel` bounds the depth. `Res.fuel`
says that it was not enough, which is no outcome of the program. The loops consume a
token in each round, and the number of characters bounds their rounds.
-/

namespace Xv6.Sh

/-- Maximum number of words of a command, with the one that ends them. -/
abbrev MAXARGS : Nat := 10

/-- `whitespace`. -/
def isSpace (c : Char) : Bool := c ∈ [' ', '\t', '\r', '\n', '\x0b']

/-- `symbols`. -/
def isSymbol (c : Char) : Bool := c ∈ ['<', '|', '>', '&', ';', '(', ')']

def isWord (c : Char) : Bool := !isSpace c && !isSymbol c

/-- What `gettoken` returns, with the word it points at. -/
inductive Tok where
  | bar
  | lpar
  | rpar
  | semi
  | amp
  | lt
  | gt
  /-- `>>`, returned as a plus sign. -/
  | gtgt
  | word (w : List Char)
deriving DecidableEq

/-- `while(s < es && strchr(whitespace, *s)) s++`. -/
def skip (cs : List Char) : List Char := cs.dropWhile isSpace

/-- The token at the start of the string, which has no space there, and what follows it. -/
def token : List Char → Option Tok × List Char
  | [] => (none, [])
  | c :: s =>
    if c = '|' then (some .bar, s)
    else if c = '(' then (some .lpar, s)
    else if c = ')' then (some .rpar, s)
    else if c = ';' then (some .semi, s)
    else if c = '&' then (some .amp, s)
    else if c = '<' then (some .lt, s)
    else if c = '>' then
      if s.head? = some '>' then (some .gtgt, s.tail) else (some .gt, s)
    else (some (.word ((c :: s).takeWhile isWord)), (c :: s).dropWhile isWord)

def gettoken (cs : List Char) : Option Tok × List Char :=
  ((token (skip cs)).1, skip (token (skip cs)).2)

/-- Whether one of the characters `toks` comes next. -/
def peek (toks : List Char) (cs : List Char) : Bool × List Char :=
  match skip cs with
  | [] => (false, [])
  | c :: s => (c ∈ toks, c :: s)

/-! ## Commands -/

/-- A redirection: the file, the mode to open it with, and the descriptor. -/
structure Redir where
  file : List Char
  mode : Nat
  fd : Nat
deriving DecidableEq

inductive Cmd where
  | exec (argv : List (List Char))
  | redir (cmd : Cmd) (r : Redir)
  | pipe (left right : Cmd)
  | list (left right : Cmd)
  | back (cmd : Cmd)

/-- The redirections wrapped around a command, the first one innermost. -/
def Cmd.wrap (c : Cmd) (rs : List Redir) : Cmd := rs.foldl Cmd.redir c

inductive Panic where
  | leftovers
  | missingFile
  | parseblock
  | missingParen
  | syntaxError
  | tooManyArgs
deriving DecidableEq

inductive Res (α : Type) where
  | ok (a : α)
  | panics (p : Panic)
  | fuel

def Res.bind {α β : Type} : Res α → (α → Res β) → Res β
  | .ok a, f => f a
  | .panics p, _ => .panics p
  | .fuel, _ => .fuel

/-! ## The procedures -/

/-- `redircmd` for the token of a redirection. -/
def redirOf (tok : Option Tok) (file : List Char) : Redir :=
  if tok = some .lt then ⟨file, O_RDONLY, 0⟩ else ⟨file, O_WRONLY ||| O_CREATE, 1⟩

/-- `parseredirs`: the redirections to wrap around the command. -/
def parseredirs : Nat → List Char → Res (List Redir × List Char)
  | 0, _ => .fuel
  | n + 1, cs =>
    if (peek ['<', '>'] cs).1 then
      let t := gettoken (peek ['<', '>'] cs).2
      match gettoken t.2 with
      | (some (.word f), cs) =>
        (parseredirs n cs).bind fun x => .ok (redirOf t.1 f :: x.1, x.2)
      | _ => .panics .missingFile
    else .ok ([], (peek ['<', '>'] cs).2)

/-- The loop of `parseexec`, with `argc` words already there: the words and the redirections. -/
def parseargs : Nat → Nat → List Char → Res (List (List Char) × List Redir × List Char)
  | 0, _, _ => .fuel
  | n + 1, argc, cs =>
    let cs := (peek ['|', ')', '&', ';'] cs)
    if cs.1 then .ok ([], [], cs.2)
    else
      match gettoken cs.2 with
      | (none, cs) => .ok ([], [], cs)
      | (some (.word w), cs) =>
        if MAXARGS ≤ argc + 1 then .panics .tooManyArgs
        else
          (parseredirs (cs.length + 1) cs).bind fun x =>
            (parseargs n (argc + 1) x.2).bind fun y => .ok (w :: y.1, x.1 ++ y.2.1, y.2.2)
      | _ => .panics .syntaxError

/-- The loop of `parseline` over `&`. -/
def parsebacks : Nat → Cmd → List Char → Res (Cmd × List Char)
  | 0, _, _ => .fuel
  | n + 1, cmd, cs =>
    if (peek ['&'] cs).1 then parsebacks n (.back cmd) (gettoken (peek ['&'] cs).2).2
    else .ok (cmd, (peek ['&'] cs).2)

mutual

def parseline : Nat → List Char → Res (Cmd × List Char)
  | 0, _ => .fuel
  | n + 1, cs =>
    (parsepipe n cs).bind fun x =>
      (parsebacks (x.2.length + 1) x.1 x.2).bind fun y =>
        if (peek [';'] y.2).1 then
          (parseline n (gettoken (peek [';'] y.2).2).2).bind fun z => .ok (.list y.1 z.1, z.2)
        else .ok (y.1, (peek [';'] y.2).2)

def parsepipe : Nat → List Char → Res (Cmd × List Char)
  | 0, _ => .fuel
  | n + 1, cs =>
    (parseexec n cs).bind fun x =>
      if (peek ['|'] x.2).1 then
        (parsepipe n (gettoken (peek ['|'] x.2).2).2).bind fun z => .ok (.pipe x.1 z.1, z.2)
      else .ok (x.1, (peek ['|'] x.2).2)

def parseexec : Nat → List Char → Res (Cmd × List Char)
  | 0, _ => .fuel
  | n + 1, cs =>
    if (peek ['('] cs).1 then parseblock n (peek ['('] cs).2
    else
      (parseredirs ((peek ['('] cs).2.length + 1) (peek ['('] cs).2).bind fun x =>
        (parseargs (x.2.length + 1) 0 x.2).bind fun y =>
          .ok ((Cmd.exec y.1).wrap (x.1 ++ y.2.1), y.2.2)

def parseblock : Nat → List Char → Res (Cmd × List Char)
  | 0, _ => .fuel
  | n + 1, cs =>
    if (peek ['('] cs).1 then
      (parseline n (gettoken (peek ['('] cs).2).2).bind fun x =>
        if (peek [')'] x.2).1 then
          let cs := (gettoken (peek [')'] x.2).2).2
          (parseredirs (cs.length + 1) cs).bind fun y => .ok (x.1.wrap y.1, y.2)
        else .panics .missingParen
    else .panics .parseblock

end

def parsecmd (s : List Char) : Res Cmd :=
  (parseline (4 * s.length + 4) s).bind fun x =>
    if (peek [] x.2).2 = [] then .ok x.1 else .panics .leftovers

/-! ## Tokens -/

variable {cs : List Char}

theorem skip_cons {c : Char} {s : List Char} (h : skip cs = c :: s) : isSpace c = false := by
  have hhead := List.head?_dropWhile_not isSpace cs
  rw [← skip, h] at hhead
  simpa using hhead

theorem skip_of_not_space {c : Char} {s : List Char} (h : isSpace c = false) : skip (c :: s) = c :: s := by
  rw [skip, List.dropWhile_cons_of_neg (by simp [h])]

@[simp] theorem skip_skip (cs : List Char) : skip (skip cs) = skip cs := by
  cases h : skip cs with
  | nil => rfl
  | cons c s => exact skip_of_not_space (skip_cons h)

theorem length_skip_le (cs : List Char) : (skip cs).length ≤ cs.length :=
  List.length_dropWhile_le _ _

/-- The symbol a token starts with. -/
def Tok.char : Tok → Option Char
  | .bar => some '|'
  | .lpar => some '('
  | .rpar => some ')'
  | .semi => some ';'
  | .amp => some '&'
  | .lt => some '<'
  | .gt => some '>'
  | .gtgt => some '>'
  | .word _ => none

theorem token_cons (c : Char) (s : List Char) :
    ∃ t, (token (c :: s)).1 = some t ∧ t.char = if isSymbol c then some c else none := by
  rw [token]
  by_cases h1 : c = '|'
  · rw [if_pos h1, h1]
    exact ⟨_, rfl, rfl⟩
  rw [if_neg h1]
  by_cases h2 : c = '('
  · rw [if_pos h2, h2]
    exact ⟨_, rfl, rfl⟩
  rw [if_neg h2]
  by_cases h3 : c = ')'
  · rw [if_pos h3, h3]
    exact ⟨_, rfl, rfl⟩
  rw [if_neg h3]
  by_cases h4 : c = ';'
  · rw [if_pos h4, h4]
    exact ⟨_, rfl, rfl⟩
  rw [if_neg h4]
  by_cases h5 : c = '&'
  · rw [if_pos h5, h5]
    exact ⟨_, rfl, rfl⟩
  rw [if_neg h5]
  by_cases h6 : c = '<'
  · rw [if_pos h6, h6]
    exact ⟨_, rfl, rfl⟩
  rw [if_neg h6]
  by_cases h7 : c = '>'
  · rw [if_pos h7, h7]
    split
    · exact ⟨_, rfl, rfl⟩
    · exact ⟨_, rfl, rfl⟩
  rw [if_neg h7]
  have hsym : isSymbol c = false := by simp [isSymbol, *]
  rw [hsym]
  exact ⟨_, rfl, rfl⟩

theorem length_token_le (c : Char) (s : List Char) (h : isSpace c = false) :
    (token (c :: s)).2.length ≤ s.length := by
  rw [token]
  by_cases h1 : c = '|'
  · rw [if_pos h1]
  rw [if_neg h1]
  by_cases h2 : c = '('
  · rw [if_pos h2]
  rw [if_neg h2]
  by_cases h3 : c = ')'
  · rw [if_pos h3]
  rw [if_neg h3]
  by_cases h4 : c = ';'
  · rw [if_pos h4]
  rw [if_neg h4]
  by_cases h5 : c = '&'
  · rw [if_pos h5]
  rw [if_neg h5]
  by_cases h6 : c = '<'
  · rw [if_pos h6]
  rw [if_neg h6]
  by_cases h7 : c = '>'
  · rw [if_pos h7]
    split
    · rw [List.length_tail]
      exact Nat.sub_le _ _
    · exact Nat.le_refl _
  rw [if_neg h7]
  have hword : isWord c = true := by simp [isWord, isSymbol, *]
  dsimp only
  rw [List.dropWhile_cons_of_pos hword]
  exact List.length_dropWhile_le _ _

def next (cs : List Char) : Option Tok := (gettoken cs).1

/-- What follows it. -/
def rest (cs : List Char) : List Char := (gettoken cs).2

@[simp] theorem gettoken_skip (cs : List Char) : gettoken (skip cs) = gettoken cs := by
  rw [gettoken, skip_skip, gettoken]

@[simp] theorem next_skip (cs : List Char) : next (skip cs) = next cs := by rw [next, gettoken_skip, next]

@[simp] theorem rest_skip (cs : List Char) : rest (skip cs) = rest cs := by rw [rest, gettoken_skip, rest]

theorem gettoken_eq (cs : List Char) : gettoken cs = (next cs, rest cs) := rfl

theorem next_none : next cs = none ↔ skip cs = [] := by
  cases h : skip cs with
  | nil => simp [next, gettoken, h, token]
  | cons c s =>
    obtain ⟨t, ht, -⟩ := token_cons c s
    simp [next, gettoken, h, ht]

variable {t : Tok}

theorem rest_lt (h : next cs = some t) : (rest cs).length < cs.length := by
  cases hs : skip cs with
  | nil =>
    rw [next_none.mpr hs] at h
    cases h
  | cons c s =>
    have h₁ := length_token_le c s (skip_cons hs)
    have h₂ := length_skip_le (token (c :: s)).2
    have h₃ := length_skip_le cs
    rw [hs, List.length_cons] at h₃
    have : rest cs = skip (token (c :: s)).2 := by rw [rest, gettoken, hs]
    rw [this]
    omega

theorem peek_snd (toks cs : List Char) : (peek toks cs).2 = skip cs := by
  unfold peek
  split <;> simp [*]

theorem peek_fst {toks : List Char} (cs : List Char) (hsym : ∀ c ∈ toks, isSymbol c = true) :
    (peek toks cs).1 = true ↔ ∃ t c, next cs = some t ∧ t.char = some c ∧ c ∈ toks := by
  unfold peek
  split
  · rename_i h
    rw [next_none.mpr h]
    simp
  · rename_i c s h
    obtain ⟨t, ht, hchar⟩ := token_cons c s
    have hnext : next cs = some t := by rw [next, gettoken, h]; exact ht
    simp only [decide_eq_true_eq, hnext, Option.some.injEq]
    constructor
    · intro hc
      exact ⟨t, c, rfl, by rw [hchar, hsym c hc]; rfl, hc⟩
    · rintro ⟨t', c', rfl, hc, hmem⟩
      rw [hchar] at hc
      split at hc
      · cases hc
        exact hmem
      · cases hc

/-- The tokens of a string, as split by `gettoken`. -/
def tokens (cs : List Char) : List Tok :=
  match _h : next cs with
  | none => []
  | some t => t :: tokens (rest cs)
termination_by cs.length
decreasing_by exact rest_lt _h

theorem tokens_none (h : next cs = none) : tokens cs = [] := by
  rw [tokens]
  split
  · rfl
  · rename_i t ht
    rw [h] at ht
    cases ht

theorem tokens_some (h : next cs = some t) : tokens cs = t :: tokens (rest cs) := by
  rw [tokens]
  split
  · rename_i ht
    rw [h] at ht
    cases ht
  · rename_i t' ht
    rw [h] at ht
    cases ht
    rfl

theorem next_of_tokens {ts : List Tok} (h : tokens cs = t :: ts) :
    next cs = some t ∧ tokens (rest cs) = ts := by
  cases hn : next cs with
  | none =>
    rw [tokens_none hn] at h
    cases h
  | some t' =>
    rw [tokens_some hn] at h
    cases h
    exact ⟨rfl, rfl⟩

@[simp] theorem tokens_skip (cs : List Char) : tokens (skip cs) = tokens cs := by
  cases hn : next cs with
  | none => rw [tokens_none hn, tokens_none (by rw [next_skip, hn])]
  | some t => rw [tokens_some hn, tokens_some (by rw [next_skip, hn]), rest_skip]

theorem length_tokens_le (cs : List Char) : (tokens cs).length ≤ cs.length := by
  induction h : cs.length using Nat.strong_induction_on generalizing cs with
  | _ n ih =>
    cases hn : next cs with
    | none => rw [tokens_none hn]; exact Nat.zero_le _
    | some t =>
      have hlt := rest_lt hn
      rw [tokens_some hn, List.length_cons]
      have := ih _ (h ▸ hlt) (rest cs) rfl
      omega

end Xv6.Sh
