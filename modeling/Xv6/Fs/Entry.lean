import Xv6.Fs.Transfer
import Mathlib.Data.List.TakeWhile

/-!
# Directories as tables of entries

A directory node is a list of entries of `DESIZE` bytes. `Node.find` is the
entry a name denotes, `Node.freeEnt` the one the next name goes to, and
`Node.setEnt` stores an entry. The lemmas say that storing one entry changes
that entry and no other, and that an entry that was stored reads back.
-/

namespace Xv6

open Table Scan

/-! ## Names -/

/-- What `namecmp` compares of a name. -/
def nameKey (name : List UInt8) : List UInt8 := cstr (name.take DIRSIZ)

theorem namecmp_iff {s t : List UInt8} : namecmp s t = true ↔ nameKey s = nameKey t := by
  unfold namecmp nameKey
  exact beq_iff_eq

theorem cstr_append_zero : ∀ (l : List UInt8) (n : Nat), (∀ x ∈ l, x ≠ 0) →
    cstr (l ++ List.replicate n 0) = l
  | [], n, _ => by cases n <;> simp [cstr]
  | a :: l, n, h => by
    have ih := cstr_append_zero l n fun x hx => h x (List.mem_cons_of_mem _ hx)
    unfold cstr at ih ⊢
    rw [List.cons_append, List.takeWhile_cons_of_pos (by simpa using h a List.mem_cons_self), ih]

theorem cstr_ne_zero {l : List UInt8} : ∀ x ∈ cstr l, x ≠ 0 := by
  intro x hx
  have := List.mem_takeWhile_imp hx
  simpa using this

theorem length_nameKey (name : List UInt8) : (nameKey name).length ≤ DIRSIZ :=
  (List.takeWhile_sublist _).length_le.trans (List.length_take_le _ _)

theorem map_getD_range {l : List UInt8} {n : Nat} (h : l.length ≤ n) :
    (List.range n).map (fun i => l.getD i 0) = l ++ List.replicate (n - l.length) 0 := by
  refine List.ext_getElem (by simp; omega) fun i h1 h2 => ?_
  rw [List.getElem_map, List.getElem_range, List.getElem_append]
  split
  next hi => rw [List.getD_eq_getElem?_getD, List.getElem?_eq_getElem hi, Option.getD_some]
  next hi => simp [List.getD_eq_getElem?_getD, List.getElem?_eq_none (Nat.le_of_not_lt hi)]

theorem strncpy_eq (name : List UInt8) :
    strncpy name = nameKey name ++ List.replicate (DIRSIZ - (nameKey name).length) 0 :=
  map_getD_range (length_nameKey name)

theorem length_strncpy (name : List UInt8) : (strncpy name).length = DIRSIZ := by
  unfold strncpy
  simp

@[simp] theorem nameKey_strncpy (name : List UInt8) : nameKey (strncpy name) = nameKey name := by
  rw [nameKey, List.take_of_length_le (length_strncpy name).le, strncpy_eq]
  exact cstr_append_zero _ _ cstr_ne_zero

/-! ## Entries -/

theorem length_bytes (de : Dirent) : de.bytes.length = DESIZE := by
  unfold Dirent.bytes
  rw [List.length_cons, List.length_cons, List.length_map, List.length_range, Nat.add_assoc,
    Nat.add_comm]

theorem ofBytes_bytes (de : Dirent) : Dirent.ofBytes de.bytes =
      ⟨de.inum % 65536, (List.range DIRSIZ).map fun i => de.name.getD i 0⟩ := by
  unfold Dirent.ofBytes Dirent.bytes
  refine congrArg₂ Dirent.mk ?_ ?_
  · simp
    omega
  · refine List.map_congr_left fun i hi => ?_
    have := List.mem_range.mp hi
    rw [Nat.add_comm, List.getD_cons_succ, List.getD_cons_succ, List.getD_eq_getElem?_getD,
      List.getElem?_map, List.getElem?_range this]
    rfl

theorem ofBytes_bytes_strncpy (m : Nat) (name : List UInt8) :
    Dirent.ofBytes (Dirent.bytes ⟨m, strncpy name⟩) = ⟨m % 65536, strncpy name⟩ := by
  rw [ofBytes_bytes, map_getD_range (length_strncpy name).le, length_strncpy, Nat.sub_self,
    List.replicate_zero, List.append_nil]

/-- Store 16 bytes as entry `e`. -/
def Node.setEnt (n : Node) (e : Nat) (bs : List UInt8) : Node := n.write (DESIZE * e) bs

section

variable {n : Node} {e : Nat} {bs : List UInt8}

@[simp] theorem Node.type_setEnt : (n.setEnt e bs).type = n.type := rfl

@[simp] theorem Node.nlink_setEnt : (n.setEnt e bs).nlink = n.nlink := rfl

theorem Node.size_setEnt (hbs : bs.length = DESIZE) :
    (n.setEnt e bs).size = max n.size (DESIZE * e + DESIZE) := by
  unfold Node.setEnt Node.write
  rw [hbs]

theorem Node.ent_congr {n m : Node} {e : Nat}
    (h : ∀ j < DESIZE, n.data (DESIZE * e + j) = m.data (DESIZE * e + j)) : n.ent e = m.ent e := by
  unfold Node.ent
  rw [List.map_congr_left fun j hj => h j (List.mem_range.mp hj)]

theorem Node.ent_setEnt_same (hbs : bs.length = DESIZE) : (n.setEnt e bs).ent e = Dirent.ofBytes bs := by
  have hb : (List.range DESIZE).map (fun j => (n.setEnt e bs).data (DESIZE * e + j)) = bs := by
    refine List.ext_getElem (by simp [hbs]) fun j h1 h2 => ?_
    rw [List.getElem_map, List.getElem_range]
    change splice _ _ _ _ = _
    rw [splice, if_pos (by omega), Nat.add_sub_cancel_left, List.getD_eq_getElem?_getD,
      List.getElem?_eq_getElem h2, Option.getD_some]
  unfold Node.ent
  rw [hb]

theorem Node.ent_setEnt_ne (hbs : bs.length = DESIZE) {e' : Nat} (h : e' ≠ e) :
    (n.setEnt e bs).ent e' = n.ent e' := by
  refine Node.ent_congr fun j hj => if_neg ?_
  rw [hbs]
  simp only [DESIZE, DIRSIZ] at *
  omega

theorem Node.EntriesIn.setEnt {ninodes : Nat} (h : n.EntriesIn ninodes) (hbs : bs.length = DESIZE)
    (he : DESIZE * e ≤ n.size) (hnew : (Dirent.ofBytes bs).inum < ninodes)
    (halign : n.size % DESIZE = 0 ∨ DESIZE * e + DESIZE ≤ n.size) : (n.setEnt e bs).EntriesIn ninodes := by
  intro e' he' h0
  by_cases hne : e' = e
  · subst hne
    rw [Node.ent_setEnt_same hbs]
    exact hnew
  · rw [Node.ent_setEnt_ne hbs hne] at h0 ⊢
    refine h e' ?_ h0
    rw [Node.size_setEnt hbs] at he'
    simp only [DESIZE, DIRSIZ] at *
    omega

end

/-! ## Looking up -/

/-- The entry `name` denotes. -/
def Node.find (n : Node) (name : List UInt8) : Option Nat :=
  firstFrom (fun e => decide ((n.ent e).inum ≠ 0) && namecmp name (n.ent e).name) 0 (n.size / DESIZE)

/-- The entry that `dirlink` fills: the first that is free, or the one at the
end. -/
def Node.freeEnt (n : Node) : Nat :=
  (firstFrom (fun e => decide ((n.ent e).inum = 0)) 0 (n.size / DESIZE)).getD (n.size / DESIZE)

/-- The directory has no entries but the first two. -/
def Node.IsEmpty (n : Node) : Prop := ∀ e, 2 ≤ e → e < n.size / DESIZE → (n.ent e).inum = 0

/-- The size is a whole number of entries. -/
def Node.Aligned (n : Node) : Prop := n.size % DESIZE = 0

theorem Node.find_some {n : Node} {name : List UInt8} {e : Nat} (h : n.find name = some e) :
    e < n.size / DESIZE ∧ (n.ent e).inum ≠ 0 ∧ nameKey name = nameKey (n.ent e).name := by
  obtain ⟨-, h2, h3, -⟩ := firstFrom_some h
  rw [Bool.and_eq_true, decide_eq_true_iff, namecmp_iff] at h3
  exact ⟨by omega, h3⟩

theorem Node.find_none {n : Node} {name : List UInt8} (h : n.find name = none) {e : Nat}
    (he : e < n.size / DESIZE) (h0 : (n.ent e).inum ≠ 0) : nameKey name ≠ nameKey (n.ent e).name := by
  have := firstFrom_none h e (Nat.zero_le _) (by omega)
  rw [Bool.and_eq_false_iff, decide_eq_false_iff_not] at this
  rcases this with h1 | h1
  · exact absurd h0 h1
  · intro hk
    rw [namecmp_iff.mpr hk] at h1
    cases h1

theorem Node.lt_iff {n : Node} {e : Nat} : e < n.size / DESIZE ↔ DESIZE * e + DESIZE ≤ n.size := by
  simp only [DESIZE, DIRSIZ]
  omega

/-! ## Directories as maps -/

/-- The directory is a map: a whole number of entries, no two of them for one
name. -/
structure Node.IsMap (n : Node) : Prop where
  aligned : n.Aligned
  unique : ∀ e e', e < n.size / DESIZE → e' < n.size / DESIZE → (n.ent e).inum ≠ 0 →
    (n.ent e').inum ≠ 0 → nameKey (n.ent e).name = nameKey (n.ent e').name → e = e'

theorem Node.isMap_of_size_zero {n : Node} (h : n.size = 0) : n.IsMap := by
  refine ⟨?_, fun e e' he => ?_⟩
  · rw [Node.Aligned, h, Nat.zero_mod]
  · rw [h, Nat.zero_div] at he
    exact absurd he (Nat.not_lt_zero e)

theorem Node.IsMap.setEnt {n : Node} {e : Nat} {bs : List UInt8} (h : n.IsMap)
    (hbs : bs.length = DESIZE) (he : e ≤ n.size / DESIZE)
    (hnew : (Dirent.ofBytes bs).inum ≠ 0 → ∀ e' < n.size / DESIZE, (n.ent e').inum ≠ 0 →
      nameKey (Dirent.ofBytes bs).name ≠ nameKey (n.ent e').name) : (n.setEnt e bs).IsMap := by
  have hal : n.size % DESIZE = 0 := h.aligned
  have hsize := Node.size_setEnt (n := n) (e := e) hbs
  -- Every other entry was there.
  have hold : ∀ j < (n.setEnt e bs).size / DESIZE, j ≠ e → j < n.size / DESIZE := by
    intro j hj hne
    rw [hsize] at hj
    simp only [DESIZE, DIRSIZ] at *
    omega
  refine ⟨?_, fun j j' hj hj' h0 h0' hk => ?_⟩
  · unfold Node.Aligned
    rw [hsize]
    simp only [DESIZE, DIRSIZ] at *
    omega
  · by_cases hje : j = e <;> by_cases hje' : j' = e
    · exact hje.trans hje'.symm
    · rw [hje, Node.ent_setEnt_same hbs] at h0 hk
      rw [Node.ent_setEnt_ne hbs hje'] at h0' hk
      exact absurd hk (hnew h0 j' (hold j' hj' hje') h0')
    · rw [hje', Node.ent_setEnt_same hbs] at h0' hk
      rw [Node.ent_setEnt_ne hbs hje] at h0 hk
      exact absurd hk.symm (hnew h0' j (hold j hj hje) h0)
    · rw [Node.ent_setEnt_ne hbs hje] at h0 hk
      rw [Node.ent_setEnt_ne hbs hje'] at h0' hk
      exact h.unique j j' (hold j hj hje) (hold j' hj' hje') h0 h0' hk

theorem Node.IsMap.clear {n : Node} {e : Nat} (h : n.IsMap) (he : e < n.size / DESIZE) :
    (n.setEnt e (List.replicate DESIZE 0)).IsMap :=
  h.setEnt (List.length_replicate ..) he.le fun h0 => absurd (by decide) h0

end Xv6
