import Xv6.Fs.Runs

/-!
# A small disk

Four inodes and two data blocks, of which the root directory takes one of each.
It is a disk the kernel can boot from, and small enough to run the calls on.
-/

namespace Xv6.Tiny

open Table Trans Bytes

def sb : Superblock := ⟨36, 2, 4, 30, 2, 32, 33⟩

/-- The root directory: one block, two entries. -/
def root : Dinode := ⟨T_DIR, 0, 0, 1, 32, (Vector.replicate (NDIRECT + 1) 0).setIfInBounds 0 34⟩

/-- The blocks: the inodes, the free map and the entries of the root. -/
def blk (b : Nat) : Block :=
  if b = 32 then zeroBlock.setDinode 1 root
  else if b = 33 then fun i => if i.val < 4 then 255 else if i.val = 4 then 7 else 0
  else if b = 34 then fun i =>
    (Dirent.bytes ⟨ROOTINO, dot⟩ ++ Dirent.bytes ⟨ROOTINO, dotdot⟩).getD i.val 0
  else zeroBlock

theorem inode_root : sb.inode blk ROOTINO = root := Block.dinode_setDinode_same _ _ (by decide)

theorem inode_unused : ∀ i < sb.ninodes, (sb.inode blk i).type ≠ 0 → i = ROOTINO := by decide +kernel

theorem ptr_root (p : Nat) : root.ptr blk p = if p = 0 then 34 else 0 := by
  have haddr : ∀ p ≤ NDIRECT, root.addr p = if p = 0 then 34 else 0 := by decide
  unfold Dinode.ptr
  by_cases hp : p ≤ NDIRECT
  · rw [if_pos hp, haddr p hp]
  · rw [if_neg hp, if_neg fun hc => hc.2 (haddr NDIRECT (Nat.le_refl _)), if_neg (by omega)]

theorem image : Image sb blk := by
  have hroot : ∀ {i p}, i < sb.ninodes → (sb.inode blk i).type ≠ 0 →
      (sb.inode blk i).ptr blk p = if p = 0 then 34 else 0 := by
    intro i p hi ht
    rw [inode_unused i hi ht, inode_root, ptr_root]
  refine ⟨⟨by decide, by decide, by decide, by decide, by decide⟩, ⟨fun b hb => ?_, ?_, ?_⟩, ?_, ?_, ?_⟩
  · have hbits : ∀ b < sb.size, sb.bit blk b = decide (b < 35) := by decide +kernel
    rw [hbits b hb, decide_eq_true_iff]
    constructor
    · intro hlt
      by_cases h34 : b = 34
      · exact .inr ⟨ROOTINO, 0, by decide, by decide +kernel, by rw [inode_root, ptr_root, h34]; rfl⟩
      · exact .inl (show b < 34 by omega)
    · rintro (hlt | ⟨i, p, hi, ht, rfl⟩)
      · exact Nat.lt_succ_of_lt hlt
      · rw [hroot hi ht]
        split <;> decide
  · intro i j p q hi ht hj hu he h0
    rw [hroot hi ht] at he h0
    rw [hroot hj hu] at he
    have hp : p = 0 := by_contra fun hc => h0 (if_neg hc)
    rw [if_pos hp] at he
    refine ⟨(inode_unused i hi ht).trans (inode_unused j hj hu).symm, hp.trans ?_⟩
    by_contra hq
    rw [if_neg fun hc => hq hc.symm] at he
    cases he
  · intro i p hi ht h0
    rw [hroot hi ht] at h0 ⊢
    rw [if_pos (by_contra fun hc => h0 (if_neg hc))]
    exact ⟨by decide, by decide⟩
  · intro i hi ht _
    rw [inode_unused i hi ht, inode_root]
    refine ⟨by decide, fun o ho => ?_⟩
    have : o / BSIZE = 0 := Nat.div_eq_of_lt (Nat.lt_trans ho (by decide))
    rw [this, Dinode.block, ptr_root]
    decide
  · intro i hi ht e he h0
    rw [inode_unused i hi (by rw [ht]; decide)] at he h0 ⊢
    rw [inode_root] at he
    have he2 : e < 2 := by
      have : root.size.toNat = 32 := by decide
      change DESIZE * e + DESIZE ≤ root.size.toNat at he
      rw [this] at he
      simp only [DESIZE, DIRSIZ] at he
      omega
    have hall : ∀ e < 2, ((absNode blk (sb.inode blk ROOTINO)).ent e).inum < sb.ninodes := by
      decide +kernel
    exact hall e he2
  · rw [inode_root]
    decide

def start : Fs := boot sb blk

theorem start_sound : start.Sound := boot_sound image

/-- The call returns, and what it returns passes the check. -/
def returns (m : Kern Int) (p : Int → Fs → Bool) (s : Fs) : Bool :=
  match m s with
  | .ok (r, t) => p r t
  | .error _ => false

theorem exists_of_returns {m : Kern Int} {p : Int → Fs → Bool} {s : Fs} (h : returns m p s = true) :
    ∃ r t, m s = .ok (r, t) ∧ p r t = true := by
  unfold returns at h
  split at h
  next r t hm => exact ⟨r, t, hm, h⟩
  next => cases h

/-- Calls that return, and lead to a state that passes the check. -/
def reaches (es : List Event) (p : Fs → Bool) : Bool := (run Fs.step start es).any p

theorem exists_of_reaches {es : List Event} {p : Fs → Bool} (h : reaches es p = true) :
    ∃ s, run Fs.step start es = some s ∧ s.Sound ∧ p s = true := by
  unfold reaches at h
  rw [Option.any_eq_true] at h
  obtain ⟨s, hs, hp⟩ := h
  exact ⟨s, hs, run_sound hs start_sound, hp⟩

end Xv6.Tiny
