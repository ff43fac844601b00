import Xv6.Fs.LinkSpec

/-!
# The directory tree

A directory starts with its own entry and the one of its parent.  The entries
after these two are its links.  `Node.IsDir` says what a directory looks like, and
`Node.links` counts its links to some inodes.  Storing an entry changes that count by
the entry that was there and the one that is there now, so a new name adds one link
and leaves the first two entries as they are.
-/

namespace Xv6

open Table Scan

variable {n : Node} {d e i m : Nat} {x : List UInt8}

/-! ## Links -/

/-- Entry `e` is a link: it comes after the first two and is not free. -/
def Node.Link (n : Node) (e : Nat) : Prop := 2 ≤ e ∧ e < n.size / DESIZE ∧ (n.ent e).inum ≠ 0

instance (n : Node) (e : Nat) : Decidable (n.Link e) := inferInstanceAs (Decidable (_ ∧ _ ∧ _))

/-- How many links lead to an inode in `P`. -/
def Node.links (n : Node) (P : Nat → Prop) [DecidablePred P] : Nat :=
  ((Finset.range (n.size / DESIZE)).filter fun e => n.Link e ∧ P (n.ent e).inum).card

/-- A directory with its first two entries, and no other of these names. -/
structure Node.IsDir (n : Node) (d : Nat) : Prop where
  aligned : n.Aligned
  two : 2 ≤ n.size / DESIZE
  dot : nameKey (n.ent 0).name = nameKey dot ∧ (n.ent 0).inum = d
  dotdot : nameKey (n.ent 1).name = nameKey dotdot ∧ (n.ent 1).inum ≠ 0
  proper : ∀ e, n.Link e →
    nameKey (n.ent e).name ≠ nameKey Xv6.dot ∧ nameKey (n.ent e).name ≠ nameKey Xv6.dotdot

section

variable {P : Nat → Prop} [DecidablePred P]

theorem Node.links_pos : 0 < n.links P ↔ ∃ e, n.Link e ∧ P (n.ent e).inum := by
  unfold Node.links
  rw [Finset.card_pos]
  constructor
  · rintro ⟨e, he⟩
    exact ⟨e, (Finset.mem_filter.mp he).2⟩
  · rintro ⟨e, he, hp⟩
    exact ⟨e, Finset.mem_filter.mpr ⟨Finset.mem_range.mpr he.2.1, he, hp⟩⟩

theorem Node.links_eq_zero : n.links P = 0 ↔ ∀ e, n.Link e → ¬ P (n.ent e).inum := by
  constructor
  · intro h e he hp
    exact absurd (Node.links_pos.mpr ⟨e, he, hp⟩) (by omega)
  · intro h
    by_contra hc
    obtain ⟨e, he, hp⟩ := Node.links_pos.mp (Nat.pos_of_ne_zero hc)
    exact h e he hp

theorem Node.links_congr {Q : Nat → Prop} [DecidablePred Q]
    (h : ∀ e, n.Link e → (P (n.ent e).inum ↔ Q (n.ent e).inum)) : n.links P = n.links Q := by
  unfold Node.links
  congr 1
  exact Finset.filter_congr fun e _ => and_congr_right fun he => h e he

theorem Node.links_le (n : Node) (P : Nat → Prop) [DecidablePred P] : n.links P ≤ n.size / DESIZE := by
  unfold Node.links
  exact (Finset.card_filter_le _ _).trans (Finset.card_range _).le

theorem Node.links_eq_card {M : Nat} (hM : n.size / DESIZE ≤ M) :
    n.links P = ((Finset.range M).filter fun e => n.Link e ∧ P (n.ent e).inum).card := by
  unfold Node.links
  congr 1
  ext e
  simp only [Finset.mem_filter, Finset.mem_range]
  exact ⟨fun h => ⟨by omega, h.2⟩, fun h => ⟨h.2.1.2.1, h.2⟩⟩

end

/-! ## Storing an entry -/

section

variable {bs : List UInt8}

theorem Node.setEnt_count (hbs : bs.length = DESIZE) (hal : n.Aligned) (he : e ≤ n.size / DESIZE) :
    (n.setEnt e bs).size / DESIZE = max (n.size / DESIZE) (e + 1) ∧ (n.setEnt e bs).Aligned := by
  unfold Node.Aligned at *
  rw [Node.size_setEnt hbs]
  simp only [DESIZE, DIRSIZ] at *
  omega

theorem Node.link_setEnt (hbs : bs.length = DESIZE) (hal : n.Aligned) (he : e ≤ n.size / DESIZE)
    (h2 : 2 ≤ e) (e' : Nat) :
    (n.setEnt e bs).Link e' ↔ if e' = e then (Dirent.ofBytes bs).inum ≠ 0 else n.Link e' := by
  unfold Node.Link
  rw [(Node.setEnt_count hbs hal he).1]
  split
  next heq =>
    subst heq
    rw [Node.ent_setEnt_same hbs]
    exact ⟨fun h => h.2.2, fun h => ⟨h2, by omega, h⟩⟩
  next hne =>
    rw [Node.ent_setEnt_ne hbs hne]
    exact ⟨fun h => ⟨h.1, by omega, h.2.2⟩, fun h => ⟨h.1, by omega, h.2.2⟩⟩

theorem Node.links_setEnt (P : Nat → Prop) [DecidablePred P] (hbs : bs.length = DESIZE)
    (hal : n.Aligned) (he : e ≤ n.size / DESIZE) (h2 : 2 ≤ e) :
    (n.setEnt e bs).links P + (if n.Link e ∧ P (n.ent e).inum then 1 else 0) =
      n.links P + if (Dirent.ofBytes bs).inum ≠ 0 ∧ P (Dirent.ofBytes bs).inum then 1 else 0 := by
  have hcount := (Node.setEnt_count hbs hal he).1
  have hM : (n.setEnt e bs).size / DESIZE ≤ n.size / DESIZE + 1 := by omega
  rw [Node.links_eq_card hM, n.links_eq_card (Nat.le_succ (n.size / DESIZE))]
  have hlink := n.link_setEnt hbs hal he h2
  have := card_filter_ne (s := Finset.range (n.size / DESIZE + 1)) (a := e)
    (Finset.mem_range.mpr (by omega))
    (p := fun e' => (n.setEnt e bs).Link e' ∧ P ((n.setEnt e bs).ent e').inum)
    (q := fun e' => n.Link e' ∧ P (n.ent e').inum) fun e' hne => by
      rw [hlink, if_neg hne, Node.ent_setEnt_ne hbs hne]
  simp only [hlink, if_true, Node.ent_setEnt_same hbs] at this ⊢
  exact this

end

theorem Node.IsDir.two_le_freeEnt (h : n.IsDir d) (hd : d ≠ 0) : 2 ≤ n.freeEnt := by
  by_contra hc
  have hlive : (n.ent n.freeEnt).inum ≠ 0 := by
    rcases Nat.lt_or_ge n.freeEnt 1 with h0 | h1
    · rw [show n.freeEnt = 0 by omega, h.dot.2]
      exact hd
    · rw [show n.freeEnt = 1 by omega]
      exact h.dotdot.2
  have htwo := h.two
  unfold Node.freeEnt at hc hlive
  cases hf : firstFrom (fun e => decide ((n.ent e).inum = 0)) 0 (n.size / DESIZE) with
  | none =>
    rw [hf, Option.getD_none] at hc
    omega
  | some e =>
    rw [hf, Option.getD_some] at hlive
    have := (firstFrom_some hf).2.2.1
    exact hlive (of_decide_eq_true this)

theorem Node.not_link_freeEnt (n : Node) : ¬ n.Link n.freeEnt := by
  rintro ⟨-, h2, h3⟩
  unfold Node.freeEnt at h2 h3
  cases hf : firstFrom (fun e => decide ((n.ent e).inum = 0)) 0 (n.size / DESIZE) with
  | none =>
    rw [hf, Option.getD_none] at h2
    exact absurd h2 (Nat.lt_irrefl _)
  | some e =>
    rw [hf, Option.getD_some] at h3
    exact h3 (of_decide_eq_true (firstFrom_some hf).2.2.1)

theorem Node.IsDir.name_ne (h : n.IsDir d) (hd : d ≠ 0) (hx : n.find x = none) :
    nameKey x ≠ nameKey Xv6.dot ∧ nameKey x ≠ nameKey Xv6.dotdot := by
  have htwo := h.two
  constructor
  · rw [← h.dot.1]
    exact Node.find_none hx (by omega) (by rw [h.dot.2]; exact hd)
  · rw [← h.dotdot.1]
    exact Node.find_none hx (by omega) h.dotdot.2

theorem Node.IsDir.link_of_find (h : n.IsDir d) (hx : n.find x = some e)
    (h1 : nameKey x ≠ nameKey Xv6.dot) (h2 : nameKey x ≠ nameKey Xv6.dotdot) : n.Link e := by
  obtain ⟨he, h0, hkey⟩ := Node.find_some hx
  refine ⟨?_, he, h0⟩
  by_contra hc
  rcases Nat.lt_or_ge e 1 with hz | hz
  · rw [show e = 0 by omega] at hkey
    exact h1 (hkey.trans h.dot.1)
  · rw [show e = 1 by omega] at hkey
    exact h2 (hkey.trans h.dotdot.1)

section

variable (h : n.IsDir d) (hd : d ≠ 0) (hm0 : m ≠ 0) (hm : m < 65536)

include h hd

theorem Node.IsDir.link_addEnt (hm0 : m ≠ 0) (hm : m < 65536) (e : Nat) :
    (n.addEnt x m).Link e ↔ e = n.freeEnt ∨ n.Link e := by
  unfold Node.addEnt
  rw [Node.link_setEnt (length_bytes _) h.aligned n.freeEnt_le (h.two_le_freeEnt hd),
    ofBytes_bytes_strncpy]
  dsimp only
  rw [Nat.mod_eq_of_lt hm]
  split
  next heq => exact ⟨fun _ => .inl heq, fun _ => hm0⟩
  next hne => exact ⟨.inr, fun hc => hc.resolve_left hne⟩

theorem Node.IsDir.links_addEnt (P : Nat → Prop) [DecidablePred P] (hm0 : m ≠ 0) (hm : m < 65536) :
    (n.addEnt x m).links P = n.links P + if P m then 1 else 0 := by
  have := Node.links_setEnt P (length_bytes ⟨m, strncpy x⟩) h.aligned n.freeEnt_le
    (h.two_le_freeEnt hd)
  rw [if_neg fun hc => n.not_link_freeEnt hc.1, ofBytes_bytes_strncpy] at this
  dsimp only at this
  rw [Nat.mod_eq_of_lt hm] at this
  simp only [hm0, ne_eq, not_false_eq_true, true_and] at this
  exact this

omit h hd in
theorem Node.ent_addEnt (hm : m < 65536) (e : Nat) :
    (n.addEnt x m).ent e = if e = n.freeEnt then ⟨m, strncpy x⟩ else n.ent e := by
  unfold Node.addEnt
  split
  next heq => rw [heq, Node.ent_setEnt_same (length_bytes _), ofBytes_bytes_strncpy,
    Nat.mod_eq_of_lt hm]
  next hne => rw [Node.ent_setEnt_ne (length_bytes _) hne]

theorem Node.IsDir.addEnt (hm0 : m ≠ 0) (hm : m < 65536) (hx : n.find x = none) :
    (n.addEnt x m).IsDir d ∧ (n.addEnt x m).ent 1 = n.ent 1 := by
  have h2 := h.two_le_freeEnt hd
  have hent := fun e => n.ent_addEnt (x := x) hm e
  have hcount := n.setEnt_count (length_bytes ⟨m, strncpy x⟩) h.aligned n.freeEnt_le
  have htwo := h.two
  have h0 : (n.addEnt x m).ent 0 = n.ent 0 := by rw [hent, if_neg (by omega)]
  have h1 : (n.addEnt x m).ent 1 = n.ent 1 := by rw [hent, if_neg (by omega)]
  refine ⟨⟨hcount.2, ?_, by rw [h0]; exact h.dot, by rw [h1]; exact h.dotdot, fun e he => ?_⟩, h1⟩
  · change 2 ≤ (n.setEnt n.freeEnt _).size / DESIZE
    rw [hcount.1]
    omega
  · rw [h.link_addEnt hd hm0 hm] at he
    rw [hent]
    split
    next => rw [nameKey_strncpy]; exact h.name_ne hd hx
    next hne => exact h.proper e (he.resolve_left hne)

end

end Xv6
