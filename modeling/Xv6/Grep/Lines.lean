import Xv6.Grep.Match

/-!
# The lines that `grep` writes

The function `grep` of `grep.c`. What is in the buffer is the list of its first `m`
characters, and the pointer `p` is the list of the characters from it to those. The zero at
`buf[m]` follows them. The reads are the list of what they return, up to the one that
returns nothing.

When no line ends in the buffer, `grep` sets `m` to 0 and forgets the part of a line that is
there. So it writes the right lines if a line ends in every piece that is read, up to the
last piece in which one does, and only then.
-/

namespace Xv6.Grep

/-! ## The code -/

/-- `sizeof(buf)`. -/
abbrev BUFSIZE : Nat := 1024

/-- `strchr(p, c)`: what is before the character that it points at, and what is after it. -/
def strchr (c : Char) : List Char → Option (List Char × List Char)
  | [] => none
  | x :: p =>
    if x = NUL then none
    else if x = c then some ([], p)
    else (strchr c p).map fun r => (x :: r.1, r.2)

/-- The loop over the lines in the buffer: for each line found what is before and after its end,
and where `p` is at last. -/
def lines : Nat → List Char → List (List Char × List Char) × List Char
  | 0, p => ([], p)
  | n + 1, p =>
    match strchr '\n' p with
    | none => ([], p)
    | some (l, q) => ((l, q) :: (lines n q).1, (lines n q).2)

/-- What the loop writes. The end of the line is zero while `match` reads it. -/
def writes (pattern : List Char) : List (List Char × List Char) → Option (List (List Char))
  | [] => some []
  | (l, q) :: ls =>
    (matchRe (pattern ++ [NUL]) (l ++ NUL :: (q ++ [NUL]))).bind fun b =>
      (writes pattern ls).map fun out => if b then (l ++ ['\n']) :: out else out

/-- The buffer for the next read. -/
def refill (s : List Char) : List Char :=
  if (lines s.length s).2.length = s.length then [] else (lines s.length s).2

/-- The loop of `grep`, with what is in the buffer. -/
def grepLoop (pattern : List Char) : List Char → List (List Char) → Option (List (List Char))
  | _, [] => some []
  | buf, c :: cs =>
    (writes pattern (lines (buf ++ c).length (buf ++ c)).1).bind fun out =>
      (grepLoop pattern (refill (buf ++ c)) cs).map fun rest => out ++ rest

/-- The lines that `grep` writes. -/
def grep (pattern : List Char) (reads : List (List Char)) : Option (List (List Char)) :=
  grepLoop pattern [] reads

/-- The number of bytes that `grep` asks for. -/
def room (buf : List Char) : Nat := BUFSIZE - buf.length - 1

/-- What the reads may return, with `buf` in the buffer and `input` still to be read. -/
inductive Reads : List Char → List Char → List (List Char) → Prop where
  | done {buf : List Char} : Reads buf [] []
  /-- A read of no bytes returns 0. -/
  | full {buf input : List Char} (h : room buf = 0) : Reads buf input []
  | read {buf input c : List Char} {cs : List (List Char)} (hc : c ≠ []) (hroom : c.length ≤ room buf)
      (h : Reads (refill (buf ++ c)) input cs) : Reads buf (c ++ input) (c :: cs)

/-! ## The lines of an input -/

/-- The lines of an input that have an end. -/
def complete (s : List Char) : List (List Char) := (s.splitOn '\n').dropLast

open Classical in
/-- The lines that match, with their ends. -/
noncomputable def matching (pattern s : List Char) : List (List Char) :=
  ((complete s).filter fun l => decide (Matches pattern l)).map fun l => l ++ ['\n']

variable {a : List Char}

theorem splitOn_of_notMem (h : '\n' ∉ a) : a.splitOn '\n' = [a] :=
  List.splitOnP_eq_singleton fun x hx => by
    rw [beq_eq_false_iff_ne]
    rintro rfl
    exact h hx

theorem splitOn_append_end (a b : List Char) :
    (a ++ '\n' :: b).splitOn '\n' = a.splitOn '\n' ++ b.splitOn '\n' :=
  List.splitOnP_append_cons a b (beq_self_eq_true _)

theorem splitOn_append (h : '\n' ∉ a) (b : List Char) :
    (a ++ b).splitOn '\n' = (b.splitOn '\n').modifyHead (a ++ ·) := by
  induction a with
  | nil => cases hb : b.splitOn '\n' <;> simp [hb]
  | cons x a ih =>
    have hx : (x == '\n') = false := by
      rw [beq_eq_false_iff_ne]
      rintro rfl
      exact h List.mem_cons_self
    have ih' := ih fun ha => h (.tail x ha)
    rw [List.splitOn] at ih' ⊢
    rw [List.cons_append, List.splitOnP_cons_eq_if_modifyHead, hx, ih']
    cases b.splitOn '\n' <;> rfl

theorem splitOn_ne_nil (s : List Char) : s.splitOn '\n' ≠ [] := List.splitOnP_ne_nil _ s

variable {s : List Char}

theorem complete_of_notMem (h : '\n' ∉ s) : complete s = [] := by
  rw [complete, splitOn_of_notMem h]
  rfl

theorem complete_append {t : List Char} {ls : List (List Char)}
    (h : s.splitOn '\n' = ls ++ t.splitOn '\n') : complete s = ls ++ complete t := by
  rw [complete, h, List.dropLast_append_of_ne_nil (splitOn_ne_nil t), complete]

theorem complete_append_end (a b : List Char) : complete (a ++ '\n' :: b) = a.splitOn '\n' ++ complete b :=
  complete_append (splitOn_append_end a b)

/-! ## The scan of the buffer -/

theorem strchr_none {p : List Char} (hnul : NUL ∉ p) (h : strchr '\n' p = none) : '\n' ∉ p := by
  induction p with
  | nil => exact List.not_mem_nil
  | cons x p ih =>
    have hx : x ≠ NUL := fun h => hnul (h ▸ List.mem_cons_self)
    rw [strchr, if_neg hx] at h
    split at h
    · cases h
    · rename_i hne
      rw [List.mem_cons, not_or]
      exact ⟨fun h => hne h.symm, ih (fun h => hnul (.tail x h)) (Option.map_eq_none_iff.mp h)⟩

theorem strchr_some {p l q : List Char} (h : strchr '\n' p = some (l, q)) :
    p = l ++ '\n' :: q ∧ '\n' ∉ l := by
  induction p generalizing l with
  | nil => cases h
  | cons x p ih =>
    rw [strchr] at h
    split at h
    · cases h
    · split at h
      · rename_i hx
        cases h
        exact ⟨by rw [hx]; rfl, List.not_mem_nil⟩
      · rename_i hne
        obtain ⟨⟨l', q'⟩, hr, heq⟩ := Option.map_eq_some_iff.mp h
        cases heq
        obtain ⟨rfl, hl⟩ := ih hr
        refine ⟨rfl, ?_⟩
        rw [List.mem_cons, not_or]
        exact ⟨fun h => hne h.symm, hl⟩

theorem lines_spec : ∀ (n : Nat) (s : List Char), s.length ≤ n → NUL ∉ s →
      (∀ x ∈ (lines n s).1, NUL ∉ x.1) ∧
      ∃ a, s = a ++ (lines n s).2 ∧ '\n' ∉ (lines n s).2 ∧ (a = [] ↔ '\n' ∉ s) ∧
        ∀ t, (s ++ t).splitOn '\n' = (lines n s).1.map Prod.fst ++ ((lines n s).2 ++ t).splitOn '\n'
  | 0, s, hn, _ => by
    cases List.eq_nil_of_length_eq_zero (Nat.le_zero.mp hn)
    exact ⟨fun x hx => (by cases hx), [], rfl, List.not_mem_nil, by simp, fun t => rfl⟩
  | n + 1, s, hn, hnul => by
    rw [lines]
    cases h : strchr '\n' s with
    | none =>
      have hs := strchr_none hnul h
      exact ⟨fun x hx => (by cases hx), [], rfl, hs, by simp [hs], fun t => rfl⟩
    | some r =>
      obtain ⟨l, q⟩ := r
      obtain ⟨rfl, hl⟩ := strchr_some h
      have hq : q.length ≤ n := by
        rw [List.length_append, List.length_cons] at hn
        omega
      obtain ⟨hclean, a, ha, hend, -, hsplit⟩ :=
        lines_spec n q hq fun h => hnul (List.mem_append_right l (.tail '\n' h))
      refine ⟨fun x hx => ?_, l ++ '\n' :: a, ?_, hend, by simp, fun t => ?_⟩
      · rcases List.mem_cons.mp hx with rfl | hx
        · exact fun h => hnul (List.mem_append_left _ h)
        · exact hclean x hx
      · rw [List.append_assoc, List.cons_append, ← ha]
      · rw [List.append_assoc, List.cons_append, splitOn_append_end, splitOn_of_notMem hl, hsplit t]
        rfl

theorem refill_spec (hnul : NUL ∉ s) (h : '\n' ∈ s) : (∃ a, s = a ++ refill s) ∧ '\n' ∉ refill s ∧
      ∀ t, (s ++ t).splitOn '\n' = (lines s.length s).1.map Prod.fst ++ (refill s ++ t).splitOn '\n' := by
  obtain ⟨-, a, ha, hend, hnil, hsplit⟩ := lines_spec s.length s (Nat.le_refl _) hnul
  have hne : a ≠ [] := fun h' => (hnil.mp h') h
  have hlen := congrArg List.length ha
  rw [List.length_append] at hlen
  have hpos := List.length_pos_iff.mpr hne
  have hrefill : refill s = (lines s.length s).2 := if_neg (by omega)
  rw [hrefill]
  exact ⟨⟨a, ha⟩, hend, hsplit⟩

theorem refill_none (hnul : NUL ∉ s) (h : '\n' ∉ s) : (lines s.length s).1 = [] ∧ refill s = [] := by
  obtain ⟨-, a, ha, -, hnil, hsplit⟩ := lines_spec s.length s (Nat.le_refl _) hnul
  rw [hnil.mpr h, List.nil_append] at ha
  refine ⟨?_, if_pos (congrArg List.length ha).symm⟩
  have hnone := hsplit []
  rw [← ha, List.append_nil] at hnone
  exact List.map_eq_nil_iff.mp (List.self_eq_append_left.mp hnone)

variable {pattern : List Char}

theorem writes_spec (hpat : NUL ∉ pattern) : ∀ ls : List (List Char × List Char), (∀ x ∈ ls, NUL ∉ x.1) →
      writes pattern ls = some (((ls.map Prod.fst).filter fun l =>
        @decide (Matches pattern l) (Classical.propDecidable _)).map fun l => l ++ ['\n'])
  | [], _ => rfl
  | (l, q) :: ls, h => by
    obtain ⟨b, hb, hiff⟩ := matchRe_decides [] (q ++ [NUL]) hpat (h _ List.mem_cons_self)
    rw [writes, hb, writes_spec hpat ls fun x hx => h x (.tail _ hx), List.map_cons, List.filter_cons]
    cases b with
    | true => simp [hiff.mp rfl]
    | false =>
      have hnot : ¬ Matches pattern l := fun hm => by cases hiff.mpr hm
      simp [hnot]

/-! ## The reads -/

theorem matching_append {pattern s u : List Char} {ls : List (List Char)}
    (h : s.splitOn '\n' = ls ++ u.splitOn '\n') : matching pattern s = ((ls.filter fun l =>
      @decide (Matches pattern l) (Classical.propDecidable _)).map fun l => l ++ ['\n']) ++
        matching pattern u := by
  rw [matching, complete_append h, List.filter_append, List.map_append]
  rfl

theorem matching_of_notMem (h : '\n' ∉ s) : matching pattern s = [] := by
  rw [matching, complete_of_notMem h]
  rfl

/-- After a read in which no line ends there is none in which a line ends. -/
def Unbroken (reads : List (List Char)) : Prop := reads.Pairwise fun a b => '\n' ∈ b → '\n' ∈ a

variable {reads : List (List Char)}

theorem notMem_flatten : '\n' ∉ reads.flatten ↔ ∀ c ∈ reads, '\n' ∉ c := by
  simp only [List.mem_flatten, not_exists, not_and]

variable {buf : List Char}

theorem grepLoop_cons {c : List Char} {cs : List (List Char)} (hpat : NUL ∉ pattern)
    (hnul : NUL ∉ buf ++ c) :
    grepLoop pattern buf (c :: cs) = (grepLoop pattern (refill (buf ++ c)) cs).map fun rest =>
      ((((lines (buf ++ c).length (buf ++ c)).1.map Prod.fst).filter fun l =>
        @decide (Matches pattern l) (Classical.propDecidable _)).map fun l => l ++ ['\n']) ++ rest := by
  rw [grepLoop, writes_spec hpat _ (lines_spec _ _ (Nat.le_refl _) hnul).1]
  rfl

theorem grepLoop_unbroken (hpat : NUL ∉ pattern) :
    ∀ (reads : List (List Char)) (buf : List Char), NUL ∉ buf ++ reads.flatten → '\n' ∉ buf →
      Unbroken reads → grepLoop pattern buf reads = some (matching pattern (buf ++ reads.flatten))
  | [], buf, _, hbuf, _ => by
    rw [List.flatten_nil, List.append_nil, matching_of_notMem hbuf]
    rfl
  | c :: cs, buf, hnul, hbuf, hun => by
    rw [List.flatten_cons, ← List.append_assoc] at hnul ⊢
    have hleft : NUL ∉ buf ++ c := fun h => hnul (List.mem_append_left _ h)
    have hright : NUL ∉ cs.flatten := fun h => hnul (List.mem_append_right _ h)
    obtain ⟨hhead, htail⟩ := List.pairwise_cons.mp hun
    rw [grepLoop_cons hpat hleft]
    by_cases hc : '\n' ∈ c
    · obtain ⟨⟨a, ha⟩, hend, hsplit⟩ := refill_spec hleft (List.mem_append_right buf hc)
      have hnul' : NUL ∉ refill (buf ++ c) ++ cs.flatten := by
        rw [List.mem_append, not_or]
        refine ⟨fun h => hleft ?_, hright⟩
        rw [ha]
        exact List.mem_append_right a h
      rw [grepLoop_unbroken hpat cs _ hnul' hend htail, matching_append (hsplit cs.flatten)]
      rfl
    · -- no line ends from here on
      have hs : '\n' ∉ buf ++ c := by simp [hbuf, hc]
      have hcs : '\n' ∉ cs.flatten := notMem_flatten.mpr fun d hd hmem => hc (hhead d hd hmem)
      obtain ⟨hlines, hrefill⟩ := refill_none hleft hs
      rw [hlines, hrefill, grepLoop_unbroken hpat cs [] (by simpa using hright) List.not_mem_nil htail,
        List.nil_append, matching_of_notMem hcs, matching_of_notMem (by simp only [List.mem_append] at *; tauto)]
      rfl

/-- The number of bytes up to the end of the last line. -/
def bytes (s : List Char) : Nat := ((complete s).map fun l => l ++ ['\n']).flatten.length

theorem bytes_of_notMem (h : '\n' ∉ s) : bytes s = 0 := by
  rw [bytes, complete_of_notMem h]
  rfl

theorem bytes_append {b : List Char} (ha : '\n' ∉ a) (hb : '\n' ∈ b) :
    bytes (a ++ b) = a.length + bytes b := by
  obtain ⟨l, r, rfl⟩ := List.append_of_mem hb
  have hsplit : (a ++ l).splitOn '\n' = (l.splitOn '\n').modifyHead (a ++ ·) := splitOn_append ha l
  rw [bytes, bytes, ← List.append_assoc, complete_append_end, complete_append_end, hsplit]
  cases h : l.splitOn '\n' with
  | nil => exact absurd h (splitOn_ne_nil l)
  | cons x xs =>
    simp only [List.modifyHead_cons, List.map_append, List.map_cons, List.flatten_append,
      List.flatten_cons, List.length_append]
    omega

theorem matching_nil (s : List Char) : matching [] s = (complete s).map fun l => l ++ ['\n'] := by
  have hall : ∀ l, Matches [] l := fun l =>
    ⟨[], [], l, rfl, by rw [show body [] = [] from rfl, lang_nil]; exact Language.nil_mem_one,
      fun _ => rfl, fun h => by cases h⟩
  rw [matching, List.filter_eq_self.mpr fun l _ => by simp [hall l]]

/-- With the empty pattern as many bytes are written as there are in whole lines, only if no line
is broken. -/
theorem grepLoop_bytes : ∀ (reads : List (List Char)) (buf : List Char) (out : List (List Char)),
      NUL ∉ buf ++ reads.flatten → '\n' ∉ buf → (∀ c ∈ reads, c ≠ []) → grepLoop [] buf reads = some out →
        out.flatten.length ≤ bytes (buf ++ reads.flatten) ∧
        (out.flatten.length = bytes (buf ++ reads.flatten) → Unbroken reads)
  | [], buf, out, _, _, _, h => by
    cases h
    exact ⟨Nat.zero_le _, fun _ => List.Pairwise.nil⟩
  | c :: cs, buf, out, hnul, hbuf, hne, h => by
    rw [List.flatten_cons, ← List.append_assoc] at hnul ⊢
    have hleft : NUL ∉ buf ++ c := fun h => hnul (List.mem_append_left _ h)
    have hright : NUL ∉ cs.flatten := fun h => hnul (List.mem_append_right _ h)
    have hne' : ∀ d ∈ cs, d ≠ [] := fun d hd => hne d (.tail c hd)
    rw [grepLoop_cons List.not_mem_nil hleft] at h
    obtain ⟨rest, hrest, rfl⟩ := Option.map_eq_some_iff.mp h
    by_cases hc : '\n' ∈ c
    · obtain ⟨⟨a, ha⟩, hend, hsplit⟩ := refill_spec hleft (List.mem_append_right buf hc)
      have hnul' : NUL ∉ refill (buf ++ c) ++ cs.flatten := by
        rw [List.mem_append, not_or]
        refine ⟨fun h => hleft ?_, hright⟩
        rw [ha]
        exact List.mem_append_right a h
      obtain ⟨hle, heq⟩ := grepLoop_bytes cs _ rest hnul' hend hne' hrest
      have hbytes := congrArg (fun x => x.flatten.length)
        (@matching_append [] _ _ _ (hsplit cs.flatten))
      rw [matching_nil, matching_nil, List.flatten_append, List.length_append] at hbytes
      rw [List.flatten_append, List.length_append]
      change _ = _ + bytes _ at hbytes
      refine ⟨?_, fun h => List.pairwise_cons.mpr ⟨fun d _ _ => hc, heq ?_⟩⟩
      · rw [bytes, hbytes]
        omega
      · rw [bytes, hbytes] at h
        omega
    · have hs : '\n' ∉ buf ++ c := by simp [hbuf, hc]
      obtain ⟨hlines, hrefill⟩ := refill_none hleft hs
      rw [hrefill] at hrest
      obtain ⟨hle, heq⟩ :=
        grepLoop_bytes cs [] rest (by simpa using hright) List.not_mem_nil hne' hrest
      rw [List.nil_append] at hle heq
      rw [hlines]
      simp only [List.map_nil, List.filter_nil, List.nil_append]
      by_cases hcs : '\n' ∈ cs.flatten
      · have hpos : 0 < c.length := List.length_pos_iff.mpr (hne c List.mem_cons_self)
        rw [bytes_append hs hcs, List.length_append]
        exact ⟨by omega, fun h => by omega⟩
      · rw [bytes_of_notMem hcs] at hle heq
        refine ⟨by omega, fun _ => List.pairwise_cons.mpr ⟨fun d hd hmem => ?_, heq (by omega)⟩⟩
        exact absurd hmem (notMem_flatten.mp hcs d hd)

/-! ## The input is read to its end -/

theorem Reads.ne_nil {input : List Char} (h : Reads buf input reads) : ∀ c ∈ reads, c ≠ [] := by
  induction h with
  | done => exact fun c hc => (by cases hc)
  | full _ => exact fun c hc => (by cases hc)
  | read hc _ _ ih =>
    intro d hd
    rcases List.mem_cons.mp hd with rfl | hd
    · exact hc
    · exact ih d hd

theorem Reads.flatten {input : List Char} (h : Reads buf input reads)
    (hnul : NUL ∉ buf ++ input) (hbuf : '\n' ∉ buf)
    (hshort : ∀ l ∈ (buf ++ input).splitOn '\n', l.length < 1023) : reads.flatten = input := by
  induction h with
  | done => rfl
  | @full buf input hfull =>
    -- the line that fills the buffer is too long
    rw [splitOn_append hbuf] at hshort
    cases hi : input.splitOn '\n' with
    | nil => exact absurd hi (splitOn_ne_nil input)
    | cons l ls =>
      have := hshort (buf ++ l) (by rw [hi]; exact List.mem_cons_self)
      rw [List.length_append] at this
      simp only [room, BUFSIZE] at hfull
      omega
  | @read buf input c cs hc hroom _ ih =>
    rw [← List.append_assoc] at hnul hshort
    have hleft : NUL ∉ buf ++ c := fun h => hnul (List.mem_append_left _ h)
    have hright : NUL ∉ input := fun h => hnul (List.mem_append_right _ h)
    rw [List.flatten_cons]
    by_cases hmem : '\n' ∈ c
    · obtain ⟨⟨a, ha⟩, hend, hsplit⟩ := refill_spec hleft (List.mem_append_right buf hmem)
      have hnul' : NUL ∉ refill (buf ++ c) ++ input := by
        rw [List.mem_append, not_or]
        refine ⟨fun h => hleft ?_, hright⟩
        rw [ha]
        exact List.mem_append_right a h
      rw [ih hnul' hend fun l hl => hshort l ?_]
      rw [hsplit]
      exact List.mem_append_right _ hl
    · have hs : '\n' ∉ buf ++ c := by simp [hbuf, hmem]
      rw [(refill_none hleft hs).2] at ih
      rw [ih (by simpa using hright) List.not_mem_nil fun l hl => ?_]
      rw [splitOn_append hs] at hshort
      rw [List.nil_append] at hl
      cases hi : input.splitOn '\n' with
      | nil => exact absurd hi (splitOn_ne_nil input)
      | cons x xs =>
        rw [hi] at hshort hl
        rcases List.mem_cons.mp hl with rfl | hl
        · have := hshort (buf ++ c ++ l) List.mem_cons_self
          rw [List.length_append] at this
          omega
        · exact hshort l (.tail _ hl)

/-- `grep` writes the lines that match, for every pattern, if and only if a line ends in every
read up to the last one in which a line ends. -/
theorem grep_whole_lines_iff {input : List Char} {reads : List (List Char)} (hnul : NUL ∉ input)
    (hshort : ∀ l ∈ input.splitOn '\n', l.length < 1023) (hreads : Reads [] input reads) :
    (∀ pattern, NUL ∉ pattern → grep pattern reads = some (matching pattern input)) ↔ Unbroken reads := by
  have hflat : reads.flatten = input := hreads.flatten hnul List.not_mem_nil hshort
  have hnul' : NUL ∉ [] ++ reads.flatten := by
    rw [hflat]
    exact hnul
  constructor
  · intro h
    obtain ⟨-, heq⟩ := grepLoop_bytes reads [] _ hnul' List.not_mem_nil hreads.ne_nil
      (h [] List.not_mem_nil)
    refine heq ?_
    rw [matching_nil, hflat]
    rfl
  · intro h pattern hpat
    have := grepLoop_unbroken hpat reads [] hnul' List.not_mem_nil h
    rwa [hflat] at this

/-- A line that arrives in two reads: its first half is forgotten. -/
theorem grep_forgets_half_a_line :
    Reads [] ['a', 'b', '\n'] [['a'], ['b', '\n']] ∧ Matches ['a'] ['a', 'b'] ∧
      grep ['a'] [['a'], ['b', '\n']] = some [] ∧ matching ['a'] ['a', 'b', '\n'] = [['a', 'b', '\n']] := by
  have hmatch : Matches ['a'] ['a', 'b'] := by
    obtain ⟨b, hb, hiff⟩ := @matchRe_decides [] [] ['a'] ['a', 'b'] (by decide) (by decide)
    refine hiff.mp ?_
    have hrun : matchRe (['a'] ++ NUL :: []) (['a', 'b'] ++ NUL :: []) = some true := by decide
    rw [hrun] at hb
    exact (Option.some.inj hb).symm
  have hlines : complete ['a', 'b', '\n'] = [['a', 'b']] := by decide
  refine ⟨?_, hmatch, by decide, ?_⟩
  · have h₂ : Reads [] (['b', '\n'] ++ []) [['b', '\n']] := .read (by decide) (by decide) .done
    exact Reads.read (c := ['a']) (by decide) (by decide) h₂
  · rw [matching, hlines]
    simp [hmatch]

/-- Two lines that arrive together, and a part of a third. -/
theorem grep_whole_lines_iff_two :
    (∀ pattern, NUL ∉ pattern → grep pattern [['a', '\n', 'b', '\n'], ['c']] =
      some (matching pattern ['a', '\n', 'b', '\n', 'c'])) ↔ Unbroken [['a', '\n', 'b', '\n'], ['c']] := by
  refine grep_whole_lines_iff (by decide) (by decide) ?_
  have h₂ : Reads [] (['c'] ++ []) [['c']] := .read (by decide) (by decide) .done
  exact .read (c := ['a', '\n', 'b', '\n']) (by decide) (by decide) h₂

end Xv6.Grep
