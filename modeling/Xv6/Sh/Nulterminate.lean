import Xv6.Sh.Parser
import Mathlib.Data.List.Basic

/-!
# The words of a command in the buffer

`parsecmd` as the source has it: a command has pointers into the buffer, and `nulterminate`
writes a zero at the end of each word. A pointer is the list of the characters from it to
the end `es` of the string, as in `Xv6.Sh.Parser`, so that it points at the byte
`es - length` of the buffer.

A word is a longest run of word characters. So its end is at a character that is in no
word, or at the end of the string, and no zero is written into a word. Reading the words
back from the buffer gives the command of `Xv6.Sh.Parser`, where a word is its text.
-/

namespace Xv6.Sh.Ptr

/-- The pointers `q` and `eq` to the start and the end of a token. -/
structure Span where
  q : List Char
  eq : List Char

def Span.text (w : Span) : List Char := w.q.take (w.q.length - w.eq.length)

/-- `gettoken`, with the pointers that it sets. -/
def gettoken (cs : List Char) : Option Tok × Span × List Char :=
  ((token (skip cs)).1, ⟨skip cs, (token (skip cs)).2⟩, skip (token (skip cs)).2)

structure Redir where
  file : Span
  mode : Nat
  fd : Nat

inductive Cmd where
  | exec (argv : List Span)
  | redir (cmd : Cmd) (r : Redir)
  | pipe (left right : Cmd)
  | list (left right : Cmd)
  | back (cmd : Cmd)

def Cmd.wrap (c : Cmd) (rs : List Redir) : Cmd := rs.foldl Cmd.redir c

/-! ## The procedures -/

def redirOf (tok : Option Tok) (file : Span) : Redir :=
  if tok = some .lt then ⟨file, O_RDONLY, 0⟩ else ⟨file, O_WRONLY ||| O_CREATE, 1⟩

def parseredirs : Nat → List Char → Res (List Redir × List Char)
  | 0, _ => .fuel
  | n + 1, cs =>
    if (peek ['<', '>'] cs).1 then
      let t := gettoken (peek ['<', '>'] cs).2
      match gettoken t.2.2 with
      | (some (.word _), w, cs) =>
        (parseredirs n cs).bind fun x => .ok (redirOf t.1 w :: x.1, x.2)
      | _ => .panics .missingFile
    else .ok ([], (peek ['<', '>'] cs).2)

def parseargs : Nat → Nat → List Char → Res (List Span × List Redir × List Char)
  | 0, _, _ => .fuel
  | n + 1, argc, cs =>
    let cs := (peek ['|', ')', '&', ';'] cs)
    if cs.1 then .ok ([], [], cs.2)
    else
      match gettoken cs.2 with
      | (none, _, cs) => .ok ([], [], cs)
      | (some (.word _), w, cs) =>
        if MAXARGS ≤ argc + 1 then .panics .tooManyArgs
        else
          (parseredirs (cs.length + 1) cs).bind fun x =>
            (parseargs n (argc + 1) x.2).bind fun y => .ok (w :: y.1, x.1 ++ y.2.1, y.2.2)
      | _ => .panics .syntaxError

def parsebacks : Nat → Cmd → List Char → Res (Cmd × List Char)
  | 0, _, _ => .fuel
  | n + 1, cmd, cs =>
    if (peek ['&'] cs).1 then parsebacks n (.back cmd) (gettoken (peek ['&'] cs).2).2.2
    else .ok (cmd, (peek ['&'] cs).2)

mutual

def parseline : Nat → List Char → Res (Cmd × List Char)
  | 0, _ => .fuel
  | n + 1, cs =>
    (parsepipe n cs).bind fun x =>
      (parsebacks (x.2.length + 1) x.1 x.2).bind fun y =>
        if (peek [';'] y.2).1 then
          (parseline n (gettoken (peek [';'] y.2).2).2.2).bind fun z => .ok (.list y.1 z.1, z.2)
        else .ok (y.1, (peek [';'] y.2).2)

def parsepipe : Nat → List Char → Res (Cmd × List Char)
  | 0, _ => .fuel
  | n + 1, cs =>
    (parseexec n cs).bind fun x =>
      if (peek ['|'] x.2).1 then
        (parsepipe n (gettoken (peek ['|'] x.2).2).2.2).bind fun z => .ok (.pipe x.1 z.1, z.2)
      else .ok (x.1, (peek ['|'] x.2).2)

def parseexec : Nat → List Char → Res (Cmd × List Char)
  | 0, _ => .fuel
  | n + 1, cs =>
    if (peek ['('] cs).1 then parseblock n (peek ['('] cs).2
    else
      (parseredirs ((peek ['('] cs).2.length + 1) (peek ['('] cs).2).bind fun x =>
        (parseargs (x.2.length + 1) 0 x.2).bind fun y =>
          .ok ((Cmd.exec y.1).wrap (x.1 ++ y.2.1), y.2.2)

def parseblock : Nat → List Char → Res (Cmd × List Char)
  | 0, _ => .fuel
  | n + 1, cs =>
    if (peek ['('] cs).1 then
      (parseline n (gettoken (peek ['('] cs).2).2.2).bind fun x =>
        if (peek [')'] x.2).1 then
          let cs := (gettoken (peek [')'] x.2).2).2.2
          (parseredirs (cs.length + 1) cs).bind fun y => .ok (x.1.wrap y.1, y.2)
        else .panics .missingParen
    else .panics .parseblock

end

/-! ## The buffer -/

abbrev NUL : Char := '\x00'

/-- `*eq = 0`, in a buffer whose string ends at `es`. -/
def Span.terminate (es : Nat) (buf : List Char) (w : Span) : List Char := buf.set (es - w.eq.length) NUL

def nulterminate (es : Nat) : Cmd → List Char → List Char
  | .exec argv, buf => argv.foldl (Span.terminate es) buf
  | .redir c r, buf => Span.terminate es (nulterminate es c buf) r.file
  | .pipe left right, buf => nulterminate es right (nulterminate es left buf)
  | .list left right, buf => nulterminate es right (nulterminate es left buf)
  | .back c, buf => nulterminate es c buf

/-- The command, and the buffer after it. -/
def parsecmd (s : List Char) : Res (Cmd × List Char) :=
  (parseline (4 * s.length + 4) s).bind fun x =>
    if (peek [] x.2).2 = [] then .ok (x.1, nulterminate s.length x.1 (s ++ [NUL]))
    else .panics .leftovers

/-- The string at byte `i` of a buffer. -/
def cstring (buf : List Char) (i : Nat) : List Char := (buf.drop i).takeWhile fun c => c ≠ NUL

/-- The command, with `f` for each word. -/
def Cmd.words (f : Span → List Char) : Cmd → Sh.Cmd
  | .exec argv => .exec (argv.map f)
  | .redir c r => .redir (c.words f) ⟨f r.file, r.mode, r.fd⟩
  | .pipe left right => .pipe (left.words f) (right.words f)
  | .list left right => .list (left.words f) (right.words f)
  | .back c => .back (c.words f)

/-- The command as it is read from a buffer whose string ends at `es`. -/
def Cmd.read (es : Nat) (buf : List Char) (c : Cmd) : Sh.Cmd :=
  c.words fun w => cstring buf (es - w.q.length)

/-! ## Words -/

/-- A longest run of word characters of the string `s`. -/
structure Span.Word (s : List Char) (w : Span) : Prop where
  inside : w.q <:+ s
  stop : w.eq = w.q.dropWhile isWord

theorem skip_suffix (cs : List Char) : skip cs <:+ cs := List.dropWhile_suffix _

theorem Span.Word.text {s : List Char} {w : Span} (h : w.Word s) : w.text = w.q.takeWhile isWord := by
  have happ := List.takeWhile_append_dropWhile (p := isWord) (l := w.q)
  have hlen := congrArg List.length happ
  rw [List.length_append] at hlen
  rw [Span.text, h.stop, show w.q.length - (w.q.dropWhile isWord).length =
    (w.q.takeWhile isWord).length by omega]
  exact (List.prefix_iff_eq_take.mp (List.takeWhile_prefix isWord)).symm

theorem token_suffix (cs : List Char) : (token cs).2 <:+ cs := by
  cases cs with
  | nil => exact List.suffix_refl []
  | cons c s =>
    have htail : s <:+ c :: s := List.suffix_cons c s
    rw [token]
    split_ifs <;> first | exact htail | exact s.tail_suffix.trans htail | exact List.dropWhile_suffix _

theorem token_word {cs w : List Char} (h : (token cs).1 = some (.word w)) :
    w = cs.takeWhile isWord ∧ (token cs).2 = cs.dropWhile isWord := by
  cases cs with
  | nil => cases h
  | cons c s =>
    rw [token] at h ⊢
    split_ifs at h ⊢
    all_goals cases h
    exact ⟨rfl, rfl⟩

theorem gettoken_fst (cs : List Char) : Sh.gettoken cs = ((gettoken cs).1, (gettoken cs).2.2) := rfl

theorem gettoken_suffix {s cs : List Char} (h : cs <:+ s) : (gettoken cs).2.2 <:+ s :=
  ((skip_suffix _).trans (token_suffix _)).trans ((skip_suffix cs).trans h)

theorem peek_suffix {s cs : List Char} (h : cs <:+ s) (toks : List Char) : (peek toks cs).2 <:+ s := by
  rw [peek_snd]
  exact (skip_suffix cs).trans h

theorem gettoken_word {s cs t : List Char} (h : cs <:+ s) (hw : (gettoken cs).1 = some (.word t)) :
    (gettoken cs).2.1.Word s ∧ (gettoken cs).2.1.text = t := by
  obtain ⟨ht, hstop⟩ := token_word hw
  have hword : (gettoken cs).2.1.Word s := ⟨(skip_suffix cs).trans h, hstop⟩
  exact ⟨hword, by rw [hword.text, ht]; rfl⟩

/-! ## The parser and its words -/

def Redir.text (r : Redir) : Sh.Redir := ⟨r.file.text, r.mode, r.fd⟩

def Cmd.text (c : Cmd) : Sh.Cmd := c.words Span.text

theorem redirOf_text (tok : Option Tok) (w : Span) : (redirOf tok w).text = Sh.redirOf tok w.text := by
  unfold redirOf Sh.redirOf
  split <;> rfl

theorem wrap_text (c : Cmd) (rs : List Redir) : (c.wrap rs).text = c.text.wrap (rs.map Redir.text) := by
  induction rs generalizing c with
  | nil => rfl
  | cons r rs ih => exact ih (.redir c r)

def Cmd.spans : Cmd → List Span
  | .exec argv => argv
  | .redir c r => c.spans ++ [r.file]
  | .pipe left right => left.spans ++ right.spans
  | .list left right => left.spans ++ right.spans
  | .back c => c.spans

theorem spans_wrap (c : Cmd) (rs : List Redir) : (c.wrap rs).spans = c.spans ++ rs.map Redir.file := by
  induction rs generalizing c with
  | nil => exact (List.append_nil _).symm
  | cons r rs ih =>
    have h : (c.wrap (r :: rs)).spans = (Cmd.redir c r).spans ++ rs.map Redir.file := ih (.redir c r)
    rw [h, Cmd.spans, List.append_assoc]
    rfl

/-- A result with pointers stands for the result with texts. -/
def Stands {α β : Type} (text : α → β) (Good : α → Prop) : Res α → Res β → Prop
  | .ok a, r => r = .ok (text a) ∧ Good a
  | .panics p, r => r = .panics p
  | .fuel, r => r = .fuel

theorem Stands.bind {α β γ δ : Type} {text : α → β} {Good : α → Prop} {text' : γ → δ} {Good' : γ → Prop}
    {x : Res α} {y : Res β} {f : α → Res γ} {g : β → Res δ} (h : Stands text Good x y)
    (hf : ∀ a, Good a → Stands text' Good' (f a) (g (text a))) :
    Stands text' Good' (x.bind f) (y.bind g) := by
  cases x with
  | ok a =>
    obtain ⟨rfl, hgood⟩ := h
    exact hf a hgood
  | panics p =>
    cases h
    exact rfl
  | fuel =>
    cases h
    exact rfl

section Procedures

variable {s : List Char}

/-- The words of the redirections are words of `s`, and what is left is a suffix of `s`. -/
def GoodRedirs (s : List Char) (x : List Redir × List Char) : Prop :=
  x.2 <:+ s ∧ ∀ r ∈ x.1, r.file.Word s

def GoodArgs (s : List Char) (x : List Span × List Redir × List Char) : Prop :=
  GoodRedirs s x.2 ∧ ∀ w ∈ x.1, w.Word s

def GoodCmd (s : List Char) (x : Cmd × List Char) : Prop := x.2 <:+ s ∧ ∀ w ∈ x.1.spans, w.Word s

def redirsText (x : List Redir × List Char) : List Sh.Redir × List Char := (x.1.map Redir.text, x.2)

def argsText (x : List Span × List Redir × List Char) : List (List Char) × List Sh.Redir × List Char :=
  (x.1.map Span.text, redirsText x.2)

def cmdText (x : Cmd × List Char) : Sh.Cmd × List Char := (x.1.text, x.2)

theorem file_redirOf (tok : Option Tok) (w : Span) : (redirOf tok w).file = w := by
  unfold redirOf
  split <;> rfl

theorem parseredirs_stands : ∀ (n : Nat) (cs : List Char), cs <:+ s →
      Stands redirsText (GoodRedirs s) (parseredirs n cs) (Sh.parseredirs n cs)
  | 0, _, _ => rfl
  | n + 1, cs, hcs => by
    rw [parseredirs, Sh.parseredirs]
    have hpeek := peek_suffix hcs ['<', '>']
    split
    · have hcs₁ := gettoken_suffix hpeek
      have hword := fun t => gettoken_word (t := t) hcs₁
      have hcs₂ := gettoken_suffix hcs₁
      dsimp only
      rw [gettoken_fst (peek ['<', '>'] cs).2]
      dsimp only
      rw [gettoken_fst]
      generalize gettoken (gettoken (peek ['<', '>'] cs).2).2.2 = r at hword hcs₂ ⊢
      obtain ⟨tok, w, cs₂⟩ := r
      match tok with
      | some (.word t) =>
        obtain ⟨hw, htext⟩ := hword t rfl
        refine (parseredirs_stands n cs₂ hcs₂).bind fun x hx => ⟨?_, hx.1, fun r hr => ?_⟩
        · dsimp only [redirsText]
          rw [List.map_cons, redirOf_text, htext]
        · rcases List.mem_cons.mp hr with rfl | hr
          · rw [file_redirOf]
            exact hw
          · exact hx.2 r hr
      | none | some .bar | some .lpar | some .rpar | some .semi | some .amp | some .lt | some .gt
      | some .gtgt => exact rfl
    · exact ⟨rfl, hpeek, List.forall_mem_nil _⟩

theorem parseargs_stands : ∀ (n argc : Nat) (cs : List Char), cs <:+ s →
      Stands argsText (GoodArgs s) (parseargs n argc cs) (Sh.parseargs n argc cs)
  | 0, _, _, _ => rfl
  | n + 1, argc, cs, hcs => by
    rw [parseargs, Sh.parseargs]
    have hpeek := peek_suffix hcs ['|', ')', '&', ';']
    split
    · exact ⟨rfl, ⟨hpeek, List.forall_mem_nil _⟩, List.forall_mem_nil _⟩
    · have hword := fun t => gettoken_word (t := t) hpeek
      have hcs₁ := gettoken_suffix hpeek
      rw [gettoken_fst]
      generalize gettoken (peek ['|', ')', '&', ';'] cs).2 = r at hword hcs₁ ⊢
      obtain ⟨tok, w, cs₁⟩ := r
      match tok with
      | none => exact ⟨rfl, ⟨hcs₁, List.forall_mem_nil _⟩, List.forall_mem_nil _⟩
      | some (.word t) =>
        obtain ⟨hw, htext⟩ := hword t rfl
        dsimp only
        split
        · exact rfl
        · refine (parseredirs_stands _ cs₁ hcs₁).bind fun x hx =>
            (parseargs_stands n (argc + 1) x.2 hx.1).bind fun y hy => ⟨?_, ⟨hy.1.1, ?_⟩, ?_⟩
          · dsimp only [argsText, redirsText]
            rw [List.map_cons, List.map_append, htext]
          · intro r hr
            rcases List.mem_append.mp hr with hr | hr
            · exact hx.2 r hr
            · exact hy.1.2 r hr
          · intro v hv
            rcases List.mem_cons.mp hv with rfl | hv
            · exact hw
            · exact hy.2 v hv
      | some .bar | some .lpar | some .rpar | some .semi | some .amp | some .lt | some .gt
      | some .gtgt => exact rfl

theorem parsebacks_stands : ∀ (n : Nat) (c : Cmd) (cs : List Char), GoodCmd s (c, cs) →
      Stands cmdText (GoodCmd s) (parsebacks n c cs) (Sh.parsebacks n c.text cs)
  | 0, _, _, _ => rfl
  | n + 1, c, cs, h => by
    rw [parsebacks, Sh.parsebacks]
    have hpeek := peek_suffix h.1 ['&']
    split
    · exact parsebacks_stands n (.back c) _ ⟨gettoken_suffix hpeek, h.2⟩
    · exact ⟨rfl, hpeek, h.2⟩

theorem GoodCmd.both {c d : Cmd} {cs cs' : List Char} (h : GoodCmd s (c, cs)) (h' : GoodCmd s (d, cs')) :
    ∀ w ∈ c.spans ++ d.spans, w.Word s := by
  intro w hw
  rcases List.mem_append.mp hw with hw | hw
  · exact h.2 w hw
  · exact h'.2 w hw

theorem GoodCmd.wrap {c : Cmd} {cs : List Char} {x : List Redir × List Char} (h : GoodCmd s (c, cs))
    (hx : GoodRedirs s x) : GoodCmd s (c.wrap x.1, x.2) := by
  refine ⟨hx.1, fun w hw => ?_⟩
  rw [spans_wrap] at hw
  rcases List.mem_append.mp hw with hw | hw
  · exact h.2 w hw
  · obtain ⟨r, hr, rfl⟩ := List.mem_map.mp hw
    exact hx.2 r hr

theorem parse_stands : ∀ (n : Nat) (cs : List Char), cs <:+ s →
      Stands cmdText (GoodCmd s) (parseline n cs) (Sh.parseline n cs) ∧
      Stands cmdText (GoodCmd s) (parsepipe n cs) (Sh.parsepipe n cs) ∧
      Stands cmdText (GoodCmd s) (parseexec n cs) (Sh.parseexec n cs) ∧
      Stands cmdText (GoodCmd s) (parseblock n cs) (Sh.parseblock n cs)
  | 0, _, _ => ⟨rfl, rfl, rfl, rfl⟩
  | n + 1, cs, hcs => by
    refine ⟨?_, ?_, ?_, ?_⟩
    · rw [parseline, Sh.parseline]
      refine (parse_stands n cs hcs).2.1.bind fun x hx => (parsebacks_stands _ x.1 x.2 hx).bind fun y hy => ?_
      have hpeek := peek_suffix hy.1 [';']
      by_cases hc : (peek [';'] y.2).1 = true
      · rw [if_pos hc, if_pos (show (peek [';'] (cmdText y).2).1 = true from hc)]
        refine (parse_stands n _ (gettoken_suffix hpeek)).1.bind fun z hz => ⟨rfl, hz.1, ?_⟩
        exact hy.both hz
      · rw [if_neg hc, if_neg (show ¬ (peek [';'] (cmdText y).2).1 = true from hc)]
        exact ⟨rfl, hpeek, hy.2⟩
    · rw [parsepipe, Sh.parsepipe]
      refine (parse_stands n cs hcs).2.2.1.bind fun x hx => ?_
      have hpeek := peek_suffix hx.1 ['|']
      by_cases hc : (peek ['|'] x.2).1 = true
      · rw [if_pos hc, if_pos (show (peek ['|'] (cmdText x).2).1 = true from hc)]
        refine (parse_stands n _ (gettoken_suffix hpeek)).2.1.bind fun z hz => ⟨rfl, hz.1, ?_⟩
        exact hx.both hz
      · rw [if_neg hc, if_neg (show ¬ (peek ['|'] (cmdText x).2).1 = true from hc)]
        exact ⟨rfl, hpeek, hx.2⟩
    · rw [parseexec, Sh.parseexec]
      have hpeek := peek_suffix hcs ['(']
      split
      · exact (parse_stands n _ hpeek).2.2.2
      · refine (parseredirs_stands _ _ hpeek).bind fun x hx =>
          (parseargs_stands _ 0 x.2 hx.1).bind fun y hy => ⟨?_, ?_⟩
        · dsimp only [cmdText, argsText, redirsText]
          rw [wrap_text, List.map_append]
          rfl
        · have hexec : GoodCmd s (.exec y.1, y.2.2) := ⟨hy.1.1, hy.2⟩
          refine hexec.wrap (x := (x.1 ++ y.2.1, y.2.2)) ⟨hy.1.1, fun r hr => ?_⟩
          rcases List.mem_append.mp hr with hr | hr
          · exact hx.2 r hr
          · exact hy.1.2 r hr
    · rw [parseblock, Sh.parseblock]
      have hpeek := peek_suffix hcs ['(']
      split
      · refine (parse_stands n _ (gettoken_suffix hpeek)).1.bind fun x hx => ?_
        have hpeek' := peek_suffix hx.1 [')']
        by_cases hc : (peek [')'] x.2).1 = true
        · rw [if_pos hc, if_pos (show (peek [')'] (cmdText x).2).1 = true from hc)]
          refine (parseredirs_stands _ _ (gettoken_suffix hpeek')).bind fun y hy => ⟨?_, hx.wrap hy⟩
          dsimp only [redirsText, cmdText]
          rw [wrap_text]
        · rw [if_neg hc, if_neg (show ¬ (peek [')'] (cmdText x).2).1 = true from hc)]
          exact rfl
      · exact rfl

end Procedures

/-! ## The zeros -/

theorem nulterminate_eq (es : Nat) (c : Cmd) (buf : List Char) :
    nulterminate es c buf = c.spans.foldl (Span.terminate es) buf := by
  induction c generalizing buf with
  | exec argv => rfl
  | redir c r ih => rw [nulterminate, ih, Cmd.spans, List.foldl_append]; rfl
  | pipe left right ihl ihr => rw [nulterminate, ihl, ihr, Cmd.spans, List.foldl_append]
  | list left right ihl ihr => rw [nulterminate, ihl, ihr, Cmd.spans, List.foldl_append]
  | back c ih => exact ih buf

theorem getElem?_terminated (es : Nat) (ws : List Span) (buf : List Char) {i : Nat} (hi : i < buf.length) :
    (ws.foldl (Span.terminate es) buf)[i]? =
      if ∃ w ∈ ws, es - w.eq.length = i then some NUL else buf[i]? := by
  induction ws generalizing buf with
  | nil => simp
  | cons w ws ih =>
    rw [List.foldl_cons, ih _ (by rw [Span.terminate, List.length_set]; exact hi), Span.terminate,
      List.getElem?_set]
    simp only [List.exists_mem_cons_iff]
    by_cases hw : es - w.eq.length = i
    · simp [hw, hi]
    · simp [hw]

section Reading

variable {s : List Char} {ws : List Span} {w : Span}

theorem Span.Word.split (h : w.Word s) : ∃ a, s = a ++ (w.text ++ w.eq) ∧ s.length - w.q.length = a.length ∧
      s.length - w.eq.length = a.length + w.text.length := by
  obtain ⟨a, ha⟩ := h.inside
  have hq : w.text ++ w.eq = w.q := by
    rw [h.text, h.stop]
    exact List.takeWhile_append_dropWhile
  have hlen := congrArg List.length ha
  have hlen' := congrArg List.length hq
  rw [List.length_append] at hlen hlen'
  exact ⟨a, by rw [hq, ha], by omega, by omega⟩

theorem Span.Word.char_isWord (h : w.Word s) {c : Char} (hc : c ∈ w.text) : isWord c = true := by
  rw [h.text] at hc
  exact List.mem_takeWhile_imp hc

theorem Span.Word.end_not_word (h : w.Word s) {c : Char} (hc : s[s.length - w.eq.length]? = some c) :
    isWord c = false := by
  obtain ⟨a, hs, -, hend⟩ := h.split
  rw [hend] at hc
  have hhead : w.eq.head? = some c := by
    rw [← hc]
    conv_rhs => rw [hs, ← List.append_assoc, ← List.length_append]
    rw [List.getElem?_append_right (Nat.le_refl _), Nat.sub_self, List.head?_eq_getElem?]
  have hnot := List.head?_dropWhile_not Xv6.Sh.isWord w.q
  rw [← h.stop, hhead] at hnot
  simpa using hnot

theorem Span.Word.no_end_inside (h : w.Word s) {v : Span} (hv : v.Word s) {i : Nat}
    (hi : i < w.text.length) : s.length - v.eq.length ≠ s.length - w.q.length + i := by
  intro heq
  obtain ⟨a, hs, hstart, -⟩ := h.split
  have hget : s[s.length - v.eq.length]? = some w.text[i] := by
    rw [heq, hstart]
    conv_lhs => rw [hs]
    rw [List.getElem?_append_right (Nat.le_add_right _ _), Nat.add_sub_cancel_left,
      List.getElem?_append_left hi, List.getElem?_eq_getElem hi]
  have hno := hv.end_not_word hget
  rw [h.char_isWord (List.getElem_mem hi)] at hno
  cases hno

theorem cstring_terminated (hnul : NUL ∉ s) (hws : ∀ v ∈ ws, v.Word s) (hw : w ∈ ws) :
    cstring (ws.foldl (Span.terminate s.length) (s ++ [NUL])) (s.length - w.q.length) = w.text := by
  have h := hws w hw
  obtain ⟨a, hs, hstart, hend⟩ := h.split
  have hslen := congrArg List.length hs
  simp only [List.length_append] at hslen
  have hbuf : (s ++ [NUL]).length = s.length + 1 := by rw [List.length_append]; rfl
  -- the bytes of the word are as they were, and a zero follows them
  have hprefix : w.text ++ [NUL] <+:
      (ws.foldl (Span.terminate s.length) (s ++ [NUL])).drop (s.length - w.q.length) := by
    rw [List.prefix_iff_getElem?]
    intro i hi
    rw [List.length_append, List.length_singleton] at hi
    rw [List.getElem?_drop, getElem?_terminated _ _ _ (by rw [hbuf]; omega)]
    by_cases hlt : i < w.text.length
    · rw [if_neg (by rintro ⟨v, hv, heq⟩; exact h.no_end_inside (hws v hv) hlt heq)]
      rw [List.getElem?_append_left (by omega), hstart, List.getElem_append_left hlt]
      conv_lhs => rw [hs]
      rw [List.getElem?_append_right (Nat.le_add_right _ _), Nat.add_sub_cancel_left,
        List.getElem?_append_left hlt, List.getElem?_eq_getElem hlt]
    · have hi' : i = w.text.length := by omega
      rw [if_pos ⟨w, hw, by omega⟩]
      simp [hi']
  obtain ⟨t, ht⟩ := hprefix
  have hclean : ∀ c ∈ w.text, c ≠ NUL := by
    rintro c hc rfl
    apply hnul
    rw [hs]
    exact List.mem_append_right a (List.mem_append_left _ hc)
  rw [cstring, ← ht, List.append_assoc, List.takeWhile_append_of_pos (by simpa using hclean)]
  simp

end Reading

theorem words_congr {f g : Span → List Char} (c : Cmd) (h : ∀ w ∈ c.spans, f w = g w) :
    c.words f = c.words g := by
  induction c with
  | exec argv => exact congrArg Sh.Cmd.exec (List.map_congr_left h)
  | redir c r ih =>
    rw [Cmd.words, Cmd.words, ih fun w hw => h w (List.mem_append_left _ hw),
      h r.file (List.mem_append_right _ List.mem_cons_self)]
  | pipe left right ihl ihr =>
    rw [Cmd.words, Cmd.words, ihl fun w hw => h w (List.mem_append_left _ hw),
      ihr fun w hw => h w (List.mem_append_right _ hw)]
  | list left right ihl ihr =>
    rw [Cmd.words, Cmd.words, ihl fun w hw => h w (List.mem_append_left _ hw),
      ihr fun w hw => h w (List.mem_append_right _ hw)]
  | back c ih => rw [Cmd.words, Cmd.words, ih h]

/-- **Every token survives.**  The command that `parsecmd` returns, read from the buffer after
`nulterminate`, has for every word the text of its token, and it is the command that the tokens
of the string give. -/
theorem nulterminate_keeps_tokens (s : List Char) (hs : NUL ∉ s) (c : Cmd) (buf : List Char)
    (h : parsecmd s = .ok (c, buf)) : c.read s.length buf = c.text ∧ Sh.parsecmd s = .ok c.text := by
  have hstands := (parse_stands (4 * s.length + 4) s (List.suffix_refl s)).1
  rw [parsecmd] at h
  rw [Sh.parsecmd]
  cases hp : parseline (4 * s.length + 4) s with
  | panics p =>
    rw [hp] at h
    cases h
  | fuel =>
    rw [hp] at h
    cases h
  | ok x =>
    obtain ⟨d, cs⟩ := x
    rw [hp] at h hstands
    obtain ⟨heq, hgood⟩ := hstands
    rw [heq]
    dsimp only [Res.bind, cmdText] at h ⊢
    split at h
    · rename_i hnil
      cases h
      rw [if_pos hnil]
      refine ⟨words_congr c fun w hw => ?_, rfl⟩
      rw [nulterminate_eq]
      exact cstring_terminated hs hgood.2 hw
    · cases h

/-- Whether a command is returned. -/
def isOk {α : Type} : Res α → Bool
  | .ok _ => true
  | _ => false

theorem exists_of_isOk {α : Type} {r : Res α} (h : isOk r = true) : ∃ a, r = .ok a := by
  cases r with
  | ok a => exact ⟨a, rfl⟩
  | panics p => cases h
  | fuel => cases h

/-- A pipe of a redirection next to its operator and of a block in the background. -/
theorem nulterminate_keeps_tokens_nested : ∃ c buf, parsecmd "ls<f|(a b&)>g".toList = .ok (c, buf) ∧
      c.read "ls<f|(a b&)>g".toList.length buf = c.text ∧
      Sh.parsecmd "ls<f|(a b&)>g".toList = .ok c.text := by
  obtain ⟨⟨c, buf⟩, h⟩ := exists_of_isOk
    (show isOk (parsecmd "ls<f|(a b&)>g".toList) = true by decide +kernel)
  exact ⟨c, buf, h, nulterminate_keeps_tokens _ (by decide) c buf h⟩

end Xv6.Sh.Ptr
