import Xv6.Disk.Layout
import Xv6.Lib.Redo

/-!
# The redo log

The log of `log.c` over a disk and the buffers that cache it.

* `LogHeader` is `struct logheader`, kept in memory and in the first block of
  the log area.
* `Machine` is what the log code sees of the disk. `bread` returns the cached
  copy of a block if there is one and the disk's otherwise. `bwrite` writes the
  cached copy through. The writes are recorded in `io` in the order they are
  issued, since a crash keeps a prefix of them.

A clean buffer holds what the disk holds. So reading a block into the cache and
evicting a clean buffer change nothing that `bread` can tell, and the model does
neither.
-/

namespace Xv6

open Redo

/-! ## The header -/

/-- `struct logheader`: the block numbers of a transaction. -/
structure LogHeader where
  n : Nat
  block : Vector UInt32 LOGSIZE
deriving DecidableEq, Repr

/-- The header of an empty transaction, as the kernel's zeroed memory holds it. -/
def LogHeader.empty : LogHeader := ⟨0, Vector.replicate LOGSIZE 0⟩

/-- `lh.block[i]`, as a block number. -/
def LogHeader.home (lh : LogHeader) (i : Nat) : Nat := (lh.block[i]?.getD 0).toNat

def LogHeader.blocks (lh : LogHeader) : List Nat := (List.range lh.n).map lh.home

/-- The `int` stored in a word, as a loop bound: a negative bound runs no iteration. -/
def loopBound (w : UInt32) : Nat := w.toBitVec.toInt.toNat

/-- The copy loop of `read_head`: the header in the block `b`, over the entries
of `lh` that the block does not list. -/
def LogHeader.load (lh : LogHeader) (b : Block) : LogHeader where
  n := loopBound (b.uint 0)
  block := Vector.ofFn fun i => if i.val < loopBound (b.uint 0) then b.uint (i.val + 1) else lh.block[i]

/-- The copy loop of `write_head`: the block `b` with the header stored in it. -/
def LogHeader.store (lh : LogHeader) (b : Block) : Block :=
  (List.range lh.n).foldl (fun b i => b.setUint (i + 1) (lh.block[i]?.getD 0))
    (b.setUint 0 (UInt32.ofNat lh.n))

/-- The scan of `log_write`: the first index at which the header lists `b`, or
`n` if it does not. -/
def LogHeader.scan (lh : LogHeader) (b : UInt32) : Nat := lh.blocks.idxOf b.toNat

/-- `log.lh.block[i] = b` at the index the scan found, and `n++` if that was the
end. -/
def LogHeader.add (lh : LogHeader) (b : UInt32) : LogHeader where
  n := if lh.scan b = lh.n then lh.n + 1 else lh.n
  block := lh.block.setIfInBounds (lh.scan b) b

structure Log where
  /-- The first block of the log area, which holds the header. -/
  start : Nat
  /-- The number of blocks of the log area. -/
  size : Nat
  /-- How many FS system calls are executing. -/
  outstanding : Int
  /-- In `commit()`, please wait. -/
  committing : Bool
  /-- The in-memory header. -/
  lh : LogHeader
deriving DecidableEq, Repr

def Log.InArea (lg : Log) (b : Nat) : Prop := lg.start ≤ b ∧ b < lg.start + lg.size

instance (lg : Log) (b : Nat) : Decidable (lg.InArea b) := inferInstanceAs (Decidable (_ ∧ _))

/-! ## The disk and its cache -/

/-- A disk with the buffers that cache it and the block writes issued so far. -/
structure Machine where
  disk : Nat → Block
  /-- The cached contents of the blocks that have a valid buffer. -/
  cache : Nat → Option Block
  /-- The block writes so far, oldest first. -/
  io : List (Nat × Block)

/-- The contents of the buffer `bread` returns. -/
def Machine.bread (m : Machine) (b : Nat) : Block := (m.cache b).getD (m.disk b)

/-- Set the contents of the buffer of block `b` and write it to the disk. -/
def Machine.bwrite (m : Machine) (b : Nat) (v : Block) : Machine where
  disk := Function.update m.disk b v
  cache := Function.update m.cache b (some v)
  io := m.io ++ [(b, v)]

def Machine.writes (m : Machine) (ws : List (Nat × Block)) : Machine :=
  ws.foldl (fun m w => m.bwrite w.1 w.2) m

def Machine.reboot (disk : Nat → Block) : Machine := ⟨disk, fun _ => none, []⟩

theorem Machine.bread_bwrite (m : Machine) (b : Nat) (v : Block) :
    (m.bwrite b v).bread = Function.update m.bread b v := by
  funext x
  by_cases h : x = b
  · subst h; simp [Machine.bread, Machine.bwrite]
  · simp [Machine.bread, Machine.bwrite, h]

theorem Machine.bread_writes (ws : List (Nat × Block)) :
    ∀ m : Machine, (m.writes ws).bread = applyWrites ws m.bread := by
  induction ws with
  | nil => intro m; rfl
  | cons w ws ih => intro m; rw [applyWrites_cons, ← m.bread_bwrite]; exact ih _

theorem Machine.disk_writes (ws : List (Nat × Block)) :
    ∀ m : Machine, (m.writes ws).disk = applyWrites ws m.disk := by
  induction ws with
  | nil => intro m; rfl
  | cons w ws ih => intro m; exact ih _

theorem Machine.io_writes (ws : List (Nat × Block)) : ∀ m : Machine, (m.writes ws).io = m.io ++ ws := by
  induction ws with
  | nil => intro m; exact (List.append_nil _).symm
  | cons w ws ih =>
    intro m
    rw [show (m.writes (w :: ws)).io = (m.bwrite w.1 w.2).io ++ ws from ih _, Machine.bwrite,
      List.append_assoc, List.singleton_append]

theorem Machine.writes_append (m : Machine) (ws vs : List (Nat × Block)) :
    (m.writes ws).writes vs = m.writes (ws ++ vs) := (List.foldl_append ..).symm

@[simp] theorem Machine.bread_reboot (d : Nat → Block) : (Machine.reboot d).bread = d := rfl

@[simp] theorem Machine.disk_reboot (d : Nat → Block) : (Machine.reboot d).disk = d := rfl

@[simp] theorem Machine.io_reboot (d : Nat → Block) : (Machine.reboot d).io = [] := rfl

/-! ## The operations of `log.c` -/

/-- The loop that `write_log` and `install_trans` share: copy block `src tail`
to block `dst tail` and write it, for each `tail` below `n`. -/
def copyBlocks (dst src : Nat → Nat) (n : Nat) (m : Machine) : Machine :=
  (List.range n).foldl (fun m tail => m.bwrite (dst tail) (m.bread (src tail))) m

/-- Copy modified blocks from the cache to the log. -/
def writeLog (lg : Log) (m : Machine) : Machine :=
  copyBlocks (fun tail => lg.start + tail + 1) lg.lh.home lg.lh.n m

/-- Copy committed blocks from the log to their home location. -/
def installTrans (lg : Log) (m : Machine) : Machine :=
  copyBlocks lg.lh.home (fun tail => lg.start + tail + 1) lg.lh.n m

/-- Read the log header from disk into the in-memory log header. -/
def readHead (lg : Log) (m : Machine) : Log := { lg with lh := lg.lh.load (m.bread lg.start) }

/-- Write the in-memory log header to disk. -/
def writeHead (lg : Log) (m : Machine) : Machine :=
  m.bwrite lg.start (lg.lh.store (m.bread lg.start))

/-- `log.lh.n = 0`. -/
def Log.clear (lg : Log) : Log := { lg with lh := { lg.lh with n := 0 } }

/-- Install a committed transaction, if the disk holds one, and clear the log. -/
def recoverFromLog (lg : Log) (m : Machine) : Log × Machine :=
  let lg := readHead lg m
  let m := installTrans lg m
  let lg := lg.clear
  (lg, writeHead lg m)

/-- Write the transaction to the log, commit it, install it and erase it. -/
def commit (lg : Log) (m : Machine) : Log × Machine :=
  if 0 < lg.lh.n then
    let m := writeLog lg m
    let m := writeHead lg m
    let m := installTrans lg m
    let lg := lg.clear
    (lg, writeHead lg m)
  else (lg, m)

/-! ## Adding a block to the header -/

@[simp] theorem LogHeader.length_blocks (lh : LogHeader) : lh.blocks.length = lh.n := by
  simp [LogHeader.blocks]

variable {i : Nat}

theorem LogHeader.getElem_blocks (lh : LogHeader) (h : i < lh.blocks.length) :
    lh.blocks[i] = lh.home i := by
  simp [LogHeader.blocks]

variable {lh : LogHeader} {b : UInt32}

theorem LogHeader.scan_eq_n_iff : lh.scan b = lh.n ↔ b.toNat ∉ lh.blocks := by
  have hle : lh.blocks.idxOf b.toNat ≤ lh.blocks.length := List.idxOf_le_length
  rw [LogHeader.scan, ← lh.length_blocks, ← List.idxOf_lt_length_iff]
  omega

theorem LogHeader.blocks_add_of_mem (h : b.toNat ∈ lh.blocks) : (lh.add b).blocks = lh.blocks := by
  have hne : lh.scan b ≠ lh.n := fun he => scan_eq_n_iff.mp he h
  have hlt : lh.scan b < lh.blocks.length := List.idxOf_lt_length_of_mem h
  have hb : lh.home (lh.scan b) = b.toNat := by
    rw [← lh.getElem_blocks hlt]
    exact List.getElem_idxOf hlt
  have hhome : ∀ i, (lh.add b).home i = lh.home i := by
    intro i
    by_cases hi : lh.scan b = i
    · subst hi
      by_cases hs : lh.scan b < LOGSIZE
      · rw [hb]
        simp [LogHeader.home, LogHeader.add, hs]
      · simp [LogHeader.home, LogHeader.add, hs]
    · simp [LogHeader.home, LogHeader.add, Vector.getElem?_setIfInBounds_ne hi]
  rw [LogHeader.blocks, LogHeader.blocks, show (lh.add b).n = lh.n from if_neg hne]
  exact List.map_congr_left fun i _ => hhome i

theorem LogHeader.blocks_add_of_notMem (h : b.toNat ∉ lh.blocks)
    (hn : lh.n < LOGSIZE) : (lh.add b).blocks = lh.blocks ++ [b.toNat] := by
  have he : lh.scan b = lh.n := scan_eq_n_iff.mpr h
  have hold : ∀ i < lh.n, (lh.add b).home i = lh.home i := by
    intro i hi
    have hne : lh.n ≠ i := by omega
    simp [LogHeader.home, LogHeader.add, he, Vector.getElem?_setIfInBounds_ne hne]
  have hnew : (lh.add b).home lh.n = b.toNat := by
    simp [LogHeader.home, LogHeader.add, he, hn]
  rw [LogHeader.blocks, LogHeader.blocks, show (lh.add b).n = lh.n + 1 from if_pos he,
    List.range_succ, List.map_append, List.map_singleton, hnew]
  congr 1
  exact List.map_congr_left fun i hi => hold i (List.mem_range.mp hi)

/-! ## Reading the header back -/

theorem uint_zero_store (lh : LogHeader) (b : Block) : (lh.store b).uint 0 = UInt32.ofNat lh.n := by
  have h : ∀ (l : List Nat) (b : Block),
      (l.foldl (fun b i => b.setUint (i + 1) (lh.block[i]?.getD 0)) b).uint 0 = b.uint 0 := by
    intro l
    induction l with
    | nil => intro b; rfl
    | cons i l ih =>
      intro b
      rw [List.foldl_cons, ih, Block.uint_setUint_ne _ _ (by omega)]
  rw [LogHeader.store, h, Block.uint_setUint_same _ _ (by decide)]

theorem uint_succ_store (lh : LogHeader) (hn : lh.n ≤ LOGSIZE) (b : Block)
    (hi : i < lh.n) : (lh.store b).uint (i + 1) = lh.block[i]?.getD 0 := by
  have h : ∀ (k : Nat), k ≤ lh.n → ∀ b : Block, i < k →
      ((List.range k).foldl (fun b i => b.setUint (i + 1) (lh.block[i]?.getD 0)) b).uint (i + 1)
        = lh.block[i]?.getD 0 := by
    intro k
    induction k with
    | zero => intro _ b hk; omega
    | succ k ih =>
      intro hk b hik
      rw [List.range_succ, List.foldl_append, List.foldl_cons, List.foldl_nil]
      by_cases he : i = k
      · subst he
        refine Block.uint_setUint_same _ _ ?_
        simp only [LOGSIZE, MAXOPBLOCKS, NINDIRECT, BSIZE] at *
        omega
      · rw [Block.uint_setUint_ne _ _ (by omega), ih (by omega) b (by omega)]
  exact h lh.n (Nat.le_refl _) _ hi

theorem loopBound_ofNat {n : Nat} (h : n ≤ LOGSIZE) : loopBound (UInt32.ofNat n) = n := by
  simp only [LOGSIZE, MAXOPBLOCKS] at h
  rw [loopBound, BitVec.toInt_eq_toNat_of_lt]
  · simp
    omega
  · simp
    omega

theorem load_store_home (lh lh' : LogHeader) (hn : lh.n ≤ LOGSIZE) (b : Block)
    (hi : i < lh.n) : (lh'.load (lh.store b)).home i = lh.home i := by
  have hil : i < LOGSIZE := by omega
  rw [LogHeader.home, LogHeader.home, LogHeader.load, uint_zero_store, loopBound_ofNat hn]
  simp [hil, hi, uint_succ_store lh hn b hi]

end Xv6
