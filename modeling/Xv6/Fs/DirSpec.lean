import Xv6.Fs.Entry
import Xv6.Fs.Syscall

/-!
# What the directory layer does

`dirlookup`, `dirlink` and `isdirempty` on the view. Their loops read one entry
after the other, and all of them panic on a directory whose size is not a whole
number of entries.
-/

namespace Xv6

open Hoare Table Scan

variable {g : View} {s : Fs} {k : Fin NINODE} {i : Nat}

/-! ## Reading entries -/

theorem Inv.dir_size (h : Inv g s) (hk : k ∈ g.locks) (hat : g.At k i) :
    (s.icache k).din.size.toNat = (g.node i).size := by
  rw [h.din_size hk, h.inum_eq hat]

theorem Inv.size_le (h : Inv g s) (hk : k ∈ g.locks) (hat : g.At k i)
    (hdev : (g.node i).type ≠ T_DEV) : (g.node i).size ≤ MAXFILE * BSIZE := by
  have hlt := (h.at_lt hat).2
  have hty : (g.node i).type ≠ 0 := h.inum_eq hat ▸ h.locked_type hk
  have := (h.disk.noHoles i hlt hty hdev).1
  rwa [show (s.dinode i).size.toNat = (g.node i).size by rw [h.disk.node_eq i hlt]; rfl] at this

/-- One iteration of a loop over the entries reads entry `e`, or what is left of
it. -/
theorem readEnt_spec (h : Inv g s) (hk : k ∈ g.locks) (hat : g.At k i)
    (hdir : (g.node i).type = T_DIR) {e : Nat} (he : DESIZE * e < (g.node i).size) (E : Stop → Prop) :
    Wp (readi k (DESIZE * e) DESIZE) s (fun r t => t = s ∧ if e < (g.node i).size / DESIZE then
        r.1 = (DESIZE : Int) ∧ Dirent.ofBytes r.2 = (g.node i).ent e
      else r.1 ≠ (DESIZE : Int) ∧ ¬ (g.node i).Aligned) E := by
  have hdev : (g.node i).type ≠ T_DEV := by
    rw [hdir]
    decide
  have hmax := h.size_le hk hat hdev
  have hbound : MAXFILE * BSIZE + DESIZE < 2 ^ 32 := by decide
  refine (readi_spec h hk hat hdev _ _ E).imp ?_
  rintro r t ⟨rfl, rfl⟩
  refine ⟨rfl, ?_⟩
  have hnot : ¬ ((g.node i).size < DESIZE * e ∨ (DESIZE * e + DESIZE) % 2 ^ 32 < DESIZE * e) := by
    rw [Nat.mod_eq_of_lt (by omega)]
    omega
  unfold Node.read
  rw [if_neg hnot]
  split
  next hlt =>
    rw [Node.lt_iff] at hlt
    rw [if_neg (by omega)]
    exact ⟨rfl, rfl⟩
  next hge =>
    rw [Node.lt_iff] at hge
    rw [if_pos (by omega)]
    unfold Node.Aligned
    simp only [DESIZE, DIRSIZ] at *
    refine ⟨fun hc => ?_, by omega⟩
    have := Int.ofNat.inj hc
    omega

/-! ## Looking up -/

/-- The result of looking `name` up in the directory `i`. -/
def LookupPost (g : View) (i : Nat) (name : List UInt8) (s : Fs) :
    Option (Fin NINODE × Nat) → Fs → Prop
  | none, t => t = s ∧ (g.node i).find name = none ∧ (g.node i).Aligned
  | some (k, off), t => ∃ e, (g.node i).find name = some e ∧ off = DESIZE * e ∧
      Inv { g with refs := (k, ((g.node i).ent e).inum) :: g.refs } t

/-- How looking up fails. -/
def LookupStop (n : Node) (e : Stop) : Prop :=
  e.scarce ∨ e = .panic .dirlookupRead ∧ ¬ n.Aligned

theorem dirlookupFrom_spec (h : Inv g s) (hk : k ∈ g.locks) (hat : g.At k i)
    (hdir : (g.node i).type = T_DIR) (name : List UInt8) :
    ∀ (fuel e : Nat), (g.node i).size / DESIZE + 1 ≤ fuel + e → (∀ j < e, j < (g.node i).size / DESIZE →
        (decide (((g.node i).ent j).inum ≠ 0) && namecmp name ((g.node i).ent j).name) = false) →
      e ≤ (g.node i).size / DESIZE → Wp (dirlookupFrom k name fuel (DESIZE * e)) s (LookupPost g i name s)
        (LookupStop (g.node i))
  | 0, e, hfuel, _, he => by omega
  | fuel + 1, e, hfuel, hbefore, he => by
    unfold dirlookupFrom
    simp only [wp_bind, wp_inode]
    rw [h.dir_size hk hat]
    refine wp_ite (fun hlt => ?_) fun hge => ?_
    · rw [wp_bind]
      refine (readEnt_spec h hk hat hdir hlt _).imp ?_
      rintro ⟨r, bs⟩ t ⟨hts, hr⟩
      rw [hts]
      split at hr
      next hin =>
        obtain ⟨hr1, hr2⟩ := hr
        dsimp only at hr1 hr2
        refine wp_ite (fun hc => absurd hr1 hc) fun _ => ?_
        rw [hr2]
        refine wp_ite (fun hc => ?_) fun hc => ?_
        · have hfind : (g.node i).find name = some e :=
            firstFrom_eq_some (Nat.zero_le _) (by omega)
              (by rw [Bool.and_eq_true, decide_eq_true_iff]; exact hc)
              fun j _ hj => hbefore j hj (by omega)
          have hlt' := h.disk.entries i (h.at_lt hat).2 hdir e (Node.lt_iff.mp hin) hc.1
          rw [(h.cache.slot k (h.cache.locked k hk).1).1, wp_bind]
          refine (iget_spec h ⟨Nat.pos_of_ne_zero hc.1, hlt'⟩).mono (fun k' t ht => ?_)
            fun _ => .inl
          exact wp_pure.mpr ⟨e, hfind, rfl, ht⟩
        · refine dirlookupFrom_spec h hk hat hdir name fuel (e + 1) (by omega) (fun j hj hs => ?_)
            hin
          rcases Nat.lt_succ_iff_lt_or_eq.mp hj with hj | rfl
          · exact hbefore j hj hs
          · rw [Bool.and_eq_false_iff, decide_eq_false_iff_not]
            by_cases h0 : ((g.node i).ent j).inum ≠ 0
            · right
              by_contra hn
              exact hc ⟨h0, by simpa using hn⟩
            · exact .inl h0
      next hout =>
        exact wp_ite (fun _ => wp_panic.mpr (.inr ⟨rfl, hr.2⟩)) fun hc => absurd hr.1 hc
    · refine wp_pure.mpr ⟨rfl, firstFrom_eq_none fun j _ hj => hbefore j ?_ (by omega), ?_⟩
      · simp only [DESIZE, DIRSIZ] at *
        omega
      · unfold Node.Aligned
        simp only [DESIZE, DIRSIZ] at *
        omega

theorem dirlookup_spec (h : Inv g s) (hk : k ∈ g.locks) (hat : g.At k i)
    (hdir : (g.node i).type = T_DIR) (name : List UInt8) :
    Wp (dirlookup k name) s (LookupPost g i name s) (LookupStop (g.node i)) := by
  unfold dirlookup
  simp only [wp_bind, wp_inode]
  have htype : (s.icache k).din.type = T_DIR := by
    rw [h.din_type hk, h.inum_eq hat, hdir]
  refine wp_ite (fun hc => absurd htype hc) fun _ => ?_
  rw [h.dir_size hk hat]
  exact dirlookupFrom_spec h hk hat hdir name _ 0 (by omega) (fun j hj => absurd hj (by omega))
    (Nat.zero_le _)

theorem isdiremptyFrom_spec (h : Inv g s) (hk : k ∈ g.locks) (hat : g.At k i)
    (hdir : (g.node i).type = T_DIR) : ∀ (fuel e : Nat), (g.node i).size / DESIZE + 1 ≤ fuel + e →
      Wp (isdiremptyFrom k fuel (DESIZE * e)) s (fun b t => t = s ∧
          (b = true ↔ ∀ j, e ≤ j → j < (g.node i).size / DESIZE → ((g.node i).ent j).inum = 0))
        fun x => x = .panic .isdirempty ∧ ¬ (g.node i).Aligned
  | 0, e, hfuel => wp_pure.mpr ⟨rfl, fun _ j h1 h2 => by omega, fun _ => rfl⟩
  | fuel + 1, e, hfuel => by
    unfold isdiremptyFrom
    simp only [wp_bind, wp_inode]
    rw [h.dir_size hk hat]
    refine wp_ite (fun hlt => ?_) fun hge => ?_
    · rw [wp_bind]
      refine (readEnt_spec h hk hat hdir hlt _).imp ?_
      rintro ⟨r, bs⟩ t ⟨hts, hr⟩
      rw [hts]
      split at hr
      next hin =>
        obtain ⟨hr1, hr2⟩ := hr
        dsimp only at hr1 hr2
        refine wp_ite (fun hc => absurd hr1 hc) fun _ => ?_
        rw [hr2]
        refine wp_ite (fun hc => wp_pure.mpr ⟨rfl, ?_⟩) fun hc => ?_
        · simp only [Bool.false_eq_true, false_iff]
          exact fun hall => hc (hall e (Nat.le_refl _) hin)
        · refine (isdiremptyFrom_spec h hk hat hdir fuel (e + 1) (by omega)).imp ?_
          rintro b u ⟨hu, hb⟩
          refine ⟨hu, hb.trans ⟨fun hall j h1 h2 => ?_, fun hall j h1 => hall j (by omega)⟩⟩
          rcases Nat.eq_or_lt_of_le h1 with rfl | h1
          · exact not_not.mp hc
          · exact hall j h1 h2
      next hout =>
        exact wp_ite (fun _ => wp_panic.mpr ⟨rfl, hr.2⟩) fun hc => absurd hr.1 hc
    · refine wp_pure.mpr ⟨rfl, fun _ j h1 h2 => ?_, fun _ => rfl⟩
      rw [Node.lt_iff] at h2
      simp only [DESIZE, DIRSIZ] at *
      omega

theorem isdirempty_spec (h : Inv g s) (hk : k ∈ g.locks) (hat : g.At k i) (hdir : (g.node i).type = T_DIR) :
    Wp (isdirempty k) s (fun b t => t = s ∧ (b = true ↔ (g.node i).IsEmpty))
      fun x => x = .panic .isdirempty ∧ ¬ (g.node i).Aligned := by
  unfold isdirempty
  simp only [wp_bind, wp_inode]
  rw [h.dir_size hk hat]
  exact isdiremptyFrom_spec h hk hat hdir _ 2 (by omega)

/-! ## Adding an entry -/

theorem dirlinkScan_spec (h : Inv g s) (hk : k ∈ g.locks) (hat : g.At k i)
    (hdir : (g.node i).type = T_DIR) (hal : (g.node i).Aligned) (E : Stop → Prop) :
    ∀ (fuel e : Nat), (g.node i).size / DESIZE + 1 ≤ fuel + e → e ≤ (g.node i).size / DESIZE →
      (∀ j < e, ((g.node i).ent j).inum ≠ 0) → Wp (dirlinkScan k fuel (DESIZE * e)) s
        (fun off t => t = s ∧ off = DESIZE * (g.node i).freeEnt) E
  | 0, e, hfuel, he, _ => by omega
  | fuel + 1, e, hfuel, he, hbefore => by
    unfold dirlinkScan
    simp only [wp_bind, wp_inode]
    rw [h.dir_size hk hat]
    refine wp_ite (fun hlt => ?_) fun hge => ?_
    · rw [wp_bind]
      refine (readEnt_spec h hk hat hdir hlt _).imp ?_
      rintro ⟨r, bs⟩ t ⟨hts, hr⟩
      rw [hts]
      split at hr
      next hin =>
        obtain ⟨hr1, hr2⟩ := hr
        dsimp only at hr1 hr2
        refine wp_ite (fun hc => absurd hr1 hc) fun _ => ?_
        rw [hr2]
        refine wp_ite (fun hc => wp_pure.mpr ⟨rfl, ?_⟩) fun hc => ?_
        · have hfirst : firstFrom (fun e => decide (((g.node i).ent e).inum = 0)) 0
              ((g.node i).size / DESIZE) = some e :=
            firstFrom_eq_some (Nat.zero_le _) (by omega) (decide_eq_true hc)
              fun j _ hj => decide_eq_false (hbefore j hj)
          unfold Node.freeEnt
          rw [hfirst, Option.getD_some]
        · refine dirlinkScan_spec h hk hat hdir hal E fuel (e + 1) (by omega) hin fun j hj => ?_
          rcases Nat.lt_succ_iff_lt_or_eq.mp hj with hj | rfl
          · exact hbefore j hj
          · exact hc
      next hout => exact absurd hal hr.2
    · have heq : e = (g.node i).size / DESIZE := by
        simp only [DESIZE, DIRSIZ] at *
        omega
      have hfirst : firstFrom (fun e => decide (((g.node i).ent e).inum = 0)) 0
          ((g.node i).size / DESIZE) = none :=
        firstFrom_eq_none fun j _ hj => decide_eq_false (hbefore j (by omega))
      refine wp_pure.mpr ⟨rfl, ?_⟩
      unfold Node.freeEnt
      rw [hfirst, Option.getD_none, heq]

theorem Node.freeEnt_le (n : Node) : n.freeEnt ≤ n.size / DESIZE := by
  unfold Node.freeEnt
  cases hf : firstFrom (fun e => decide ((n.ent e).inum = 0)) 0 (n.size / DESIZE) with
  | none => exact Nat.le_refl _
  | some e =>
    have := (firstFrom_some hf).2.1
    simp only [Option.getD_some]
    omega

/-- The directory with an entry `name` for the inode `m`. -/
def Node.addEnt (n : Node) (name : List UInt8) (m : Nat) : Node :=
  n.setEnt n.freeEnt (Dirent.bytes ⟨m, strncpy name⟩)

theorem Node.EntriesIn.addEnt {n : Node} {ninodes m : Nat} (h : n.EntriesIn ninodes)
    (hal : n.Aligned) (hm : m < ninodes) (name : List UInt8) : (n.addEnt name m).EntriesIn ninodes := by
  refine h.setEnt (length_bytes _) ?_ ?_ (.inl hal)
  · exact (Nat.mul_le_mul_left _ n.freeEnt_le).trans (Nat.mul_div_le _ _)
  · rw [ofBytes_bytes]
    exact (Nat.mod_le _ _).trans_lt hm

theorem Node.IsMap.addEnt {n : Node} (h : n.IsMap) {name : List UInt8}
    (hfind : n.find name = none) (m : Nat) : (n.addEnt name m).IsMap := by
  refine h.setEnt (length_bytes _) n.freeEnt_le fun _ e he h0 => ?_
  rw [ofBytes_bytes_strncpy, nameKey_strncpy]
  exact Node.find_none hfind he h0

/-- Some lock the code holds is on the inode `j`. -/
def View.Locked (g : View) (j : Nat) : Prop := ∃ l ∈ g.locks, g.At l j

theorem Inv.mem_locks_iff (h : Inv g s) {t : Fs} {l : Fin NINODE} {j : Nat}
    (ht : Inv { g with refs := (l, j) :: g.refs } t) : l ∈ g.locks ↔ g.Locked j := by
  have hat : ∀ {m x}, g.At m x → View.At { g with refs := (l, j) :: g.refs } m x :=
    fun hm => hm.imp (List.mem_cons_of_mem _) id
  have hl : View.At { g with refs := (l, j) :: g.refs } l j := .inl List.mem_cons_self
  constructor
  · intro hmem
    have hold := h.at_of_ref (h.cache.locked l hmem).1
    have hj := (ht.inum_eq (hat hold)).symm.trans (ht.inum_eq hl)
    exact ⟨l, hmem, hj ▸ hold⟩
  · rintro ⟨m, hmem, hm⟩
    have := ht.cache.unique m l (ht.ref_pos (hat hm)) (ht.ref_pos hl)
      ((ht.inum_eq (hat hm)).trans (ht.inum_eq hl).symm)
    exact this ▸ hmem

/-- How adding an entry fails: the name is there already and its inode is locked,
or the directory is as long as a file can be. -/
def LinkStop (g : View) (i : Nat) (name : List UInt8) (e : Stop) : Prop :=
  LookupStop (g.node i) e ∨
  (e = .asleep ∧ ∃ j, (g.node i).find name = some j ∧ g.Locked ((g.node i).ent j).inum) ∨
  e = .panic .dirlink ∧ ¬ (g.node i).Fits (DESIZE * (g.node i).freeEnt) DESIZE

theorem dirlink_spec (h : Inv g s) (hop : g.op = true) (hk : k ∈ g.locks) (hat : g.At k i)
    (hdir : (g.node i).type = T_DIR) (name : List UInt8) {m : Nat} (hm : m < g.sb.ninodes) :
    Wp (dirlink k name m) s (fun r t =>
      (r = 0 ∧ (g.node i).find name = none ∧ (g.node i).Aligned ∧
        Inv { g with node := upd g.node i ((g.node i).addEnt name m) } t) ∨
      (r = -1 ∧ ∃ e node, (g.node i).find name = some e ∧
        ¬ g.Locked ((g.node i).ent e).inum ∧ Inv { g with node := node } t ∧
        (node = g.node ∨ node = g.drop ((g.node i).ent e).inum g.refs ∧
          (g.node ((g.node i).ent e).inum).type ≠ 0)))
      (LinkStop g i name) := by
  have hdev : (g.node i).type ≠ T_DEV := by
    rw [hdir]
    decide
  unfold dirlink
  refine (dirlookup_spec h hk hat hdir name).bind ?_ fun _ => .inl
  rintro (_ | ⟨k', off⟩) t
  · rintro ⟨hts, hfind, hal⟩
    rw [hts]
    simp only [wp_bind, wp_inode]
    rw [h.dir_size hk hat]
    refine (dirlinkScan_spec h hk hat hdir hal _ _ 0 (by omega) (Nat.zero_le _)
      fun j hj => absurd hj (by omega)).imp ?_
    rintro _ t ⟨hts, rfl⟩
    rw [hts]
    refine (writei_spec h hop hk hat hdev (Dirent.bytes ⟨m, strncpy name⟩) _ fun _ _ =>
      (h.disk.entries i (h.at_lt hat).2 hdir).addEnt hal hm name).mono ?_ fun _ he => .inl (.inl he)
    rw [length_bytes]
    rintro r u (⟨hfit, rfl, -⟩ | ⟨-, rfl, hu, -⟩)
    · exact wp_ite (fun _ => wp_panic.mpr (.inr (.inr ⟨rfl, hfit⟩))) fun hc =>
        absurd (by decide) hc
    · exact wp_ite (fun hc => absurd rfl hc) fun _ => wp_pure.mpr (.inl ⟨rfl, hfind, hal, hu⟩)
  · rintro ⟨e, hfind, -, ht⟩
    rw [wp_bind]
    by_cases hl : k' ∈ g.locks
    · exact (iput_asleep ht hl).mono (fun _ _ hf => hf) fun x hx =>
        .inr (.inl ⟨hx, e, hfind, (h.mem_locks_iff ht).mp hl⟩)
    · refine (iput_spec ht hop (List.Perm.refl _) hl).mono ?_ fun _ he => .inl (.inl he)
      rintro _ u ⟨node, hu, hnode⟩
      exact wp_pure.mpr (.inr ⟨rfl, e, node, hfind, fun hc => hl ((h.mem_locks_iff ht).mpr hc),
        hu, hnode⟩)

end Xv6
