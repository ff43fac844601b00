import Xv6.Fs.Trunc
import Xv6.Fs.Dir
import Mathlib.Data.Finset.Insert

/-!
# The invariant of the file system

The file system seen from above is a table of nodes. A `Node` is an inode with
its content, and what the disk adds, the block numbers, is hidden. A `View` is
that table together with what the kernel is in the middle of: the references the
running code holds to cache entries, the inode locks it holds, and whether a
transaction is open.

`Inv g s` says that the state `s` realizes the view `g`:

* `DiskInv`: the blocks are owned exactly, no file has a hole, the nodes are what
  the disk holds, and directory entries name inodes of the table;
* `CacheInv`: an inode has at most one cache entry, a loaded entry equals the
  disk's inode, the reference counts are the pointers there are, and the locks
  are those the code holds;
* the log is idle or has the one transaction in progress.
-/

namespace Xv6

open Bytes Table

/-! ## Nodes -/

@[ext]
structure Node where
  /-- File type, zero if the inode is free. -/
  type : Int16
  major : Int16
  minor : Int16
  nlink : Int16
  size : Nat
  /-- The content, zero from the size on. -/
  data : Nat → UInt8

/-- A node that was never used. -/
def Node.unused : Node := ⟨0, 0, 0, 0, 0, fun _ => 0⟩

/-- The node that a disk inode represents. Devices and free inodes have no
content. -/
def absNode (blk : Nat → Block) (d : Dinode) : Node where
  type := d.type
  major := d.major
  minor := d.minor
  nlink := d.nlink
  size := d.size.toNat
  data := fun o =>
    if d.type ≠ 0 ∧ d.type ≠ T_DEV ∧ o < d.size.toNat then d.contents blk o else 0

/-- Every block below the size is mapped, and the size is one `bmap` can reach. -/
def NoHoles (blk : Nat → Block) (d : Dinode) : Prop :=
  d.size.toNat ≤ MAXFILE * BSIZE ∧ ∀ o < d.size.toNat, d.block blk (o / BSIZE) ≠ 0

/-- Entry `e` of a directory. -/
def Node.ent (n : Node) (e : Nat) : Dirent :=
  Dirent.ofBytes ((List.range DESIZE).map fun j => n.data (DESIZE * e + j))

/-- The entries of a directory name inodes of the table. -/
def Node.EntriesIn (n : Node) (ninodes : Nat) : Prop :=
  ∀ e, DESIZE * e + DESIZE ≤ n.size → (n.ent e).inum ≠ 0 → (n.ent e).inum < ninodes

/-! ## The processes -/

/-- The tables the processes own. -/
structure User where
  ftable : Fin NFILE → File
  proc : Fin NPROC → Proc

/-- The tables of the processes in a state. -/
def Fs.user (s : Fs) : User := ⟨s.ftable, s.proc⟩

/-- The file is open on the cache entry `k`. -/
def File.OpenOn (f : File) (k : Fin NINODE) : Prop := 0 < f.ref ∧ f.type = .inode ∧ f.ip = k

instance (f : File) (k : Fin NINODE) : Decidable (f.OpenOn k) :=
  inferInstanceAs (Decidable (_ ∧ _ ∧ _))

/-- The process has the cache entry `k` as its current directory. -/
def Proc.CwdIs (p : Proc) (k : Fin NINODE) : Prop := p.live = true ∧ p.cwd = k

instance (p : Proc) (k : Fin NINODE) : Decidable (p.CwdIs k) := inferInstanceAs (Decidable (_ ∧ _))

/-- The pointers to cache entry `k` in the tables of the processes: open files
and current directories. -/
def User.holds (u : User) (k : Fin NINODE) : Nat :=
  (Finset.univ.filter fun f => (u.ftable f).OpenOn k).card +
    (Finset.univ.filter fun p => (u.proc p).CwdIs k).card

/-! ## Views -/

/-- The file system, and what the running code is in the middle of. -/
structure View where
  sb : Superblock
  cur : Fin NPROC
  user : User
  /-- The tables whose pointers the cache counts. They are those of the processes,
  except while the code moves a pointer. -/
  owner : User
  /-- The inode of each cache entry the owners point to. -/
  inum : Fin NINODE → Nat
  node : Nat → Node
  /-- The references to cache entries the running code holds, with the inode each
  is for. -/
  refs : List (Fin NINODE × Nat)
  locks : Finset (Fin NINODE)
  op : Bool

/-- How many references to `k` the running code holds. -/
def countRefs (refs : List (Fin NINODE × Nat)) (k : Fin NINODE) : Nat :=
  refs.countP fun h => h.1 = k

/-- The blocks realize the table of nodes. -/
structure DiskInv (sb : Superblock) (blk : Nat → Block) (I : Nat → Dinode) (node : Nat → Node) :
    Prop where
  owned : Owned sb blk I ∅
  node_eq : ∀ i < sb.ninodes, node i = absNode blk (I i)
  node_out : ∀ i, sb.ninodes ≤ i → node i = Node.unused
  noHoles : ∀ i < sb.ninodes, (node i).type ≠ 0 → (node i).type ≠ T_DEV → NoHoles blk (I i)
  entries : ∀ i < sb.ninodes, (node i).type = T_DIR → (node i).EntriesIn sb.ninodes

structure CacheInv (g : View) (c : Fin NINODE → Inode) (I : Nat → Dinode) : Prop where
  slot : ∀ k, 0 < (c k).ref →
    (c k).dev = ROOTDEV ∧ 0 < (c k).inum ∧ (c k).inum < g.sb.ninodes
  unique : ∀ k l, 0 < (c k).ref → 0 < (c l).ref → (c k).inum = (c l).inum → k = l
  coherent : ∀ k, 0 < (c k).ref → (c k).valid = true → (c k).din = I (c k).inum
  loaded : ∀ k, 0 < (c k).ref → (c k).valid = true → (g.node (c k).inum).type ≠ 0
  ref_eq : ∀ k, (c k).ref = g.owner.holds k + countRefs g.refs k
  handle : ∀ h ∈ g.refs, (c h.1).inum = h.2
  lock_eq : ∀ k, (c k).lock = if k ∈ g.locks then some g.cur else none
  locked : ∀ k ∈ g.locks, 0 < (c k).ref ∧ (c k).valid = true
  held : ∀ k, 0 < g.owner.holds k → (c k).inum = g.inum k ∧ (g.node (g.inum k)).type ≠ 0 ∧
    ((g.node (g.inum k)).nlink = 0 → (c k).valid = true)
  writers : ∀ f, 0 < (g.owner.ftable f).ref → (g.owner.ftable f).type = .inode →
    (g.owner.ftable f).writable = true → (g.node (g.inum (g.owner.ftable f).ip)).type ≠ T_DIR

structure LogIdle (op : Bool) (lg : Log) : Prop where
  committing : lg.committing = false
  idle : op = false → lg.outstanding = 0 ∧ lg.lh.n = 0
  inOp : op = true → lg.outstanding = 1

/-- The state realizes the view. -/
structure Inv (g : View) (s : Fs) : Prop where
  sb : s.sb = g.sb
  geom : g.sb.Geom
  cur : s.cur = g.cur
  user : s.user = g.user
  disk : DiskInv g.sb s.blk s.dinode g.node
  cache : CacheInv g s.icache s.dinode
  log : LogIdle g.op s.log

/-! ## Reading the invariant -/

variable {g : View} {s : Fs}

theorem Inv.inOp (h : Inv g s) (hop : g.op = true) : s.InOp := by
  unfold Fs.InOp
  rw [h.log.inOp hop]

theorem Inv.geom' (h : Inv g s) : s.sb.Geom := by
  rw [h.sb]
  exact h.geom

variable {k : Fin NINODE} {i : Nat}

theorem countRefs_pos {refs : List (Fin NINODE × Nat)} (h : (k, i) ∈ refs) : 0 < countRefs refs k :=
  List.countP_pos_iff.mpr ⟨(k, i), h, by simp⟩

/-- Something points to the cache entry `k`, which is for the inode `i`. -/
def View.At (g : View) (k : Fin NINODE) (i : Nat) : Prop :=
  (k, i) ∈ g.refs ∨ 0 < g.owner.holds k ∧ g.inum k = i

theorem Inv.ref_pos (h : Inv g s) (hk : g.At k i) : 0 < (s.icache k).ref := by
  rw [h.cache.ref_eq]
  rcases hk with hk | ⟨hk, -⟩
  · exact Nat.add_pos_right _ (countRefs_pos hk)
  · exact Nat.add_pos_left hk _

theorem Inv.inum_eq (h : Inv g s) (hk : g.At k i) : (s.icache k).inum = i := by
  rcases hk with hk | ⟨hk, rfl⟩
  · exact h.cache.handle _ hk
  · exact (h.cache.held k hk).1

theorem Inv.at_of_ref (h : Inv g s) (hk : 0 < (s.icache k).ref) : g.At k (s.icache k).inum := by
  rw [h.cache.ref_eq] at hk
  by_cases hh : 0 < g.owner.holds k
  · exact .inr ⟨hh, (h.cache.held k hh).1.symm⟩
  · obtain ⟨⟨l, j⟩, hj, he⟩ := List.countP_pos_iff.mp (show 0 < countRefs g.refs k by omega)
    simp only [decide_eq_true_eq] at he
    subst he
    rw [h.cache.handle _ hj]
    exact .inl hj

theorem Inv.at_lt (h : Inv g s) (hk : g.At k i) : 0 < i ∧ i < g.sb.ninodes := by
  have := h.cache.slot k (h.ref_pos hk)
  rw [h.inum_eq hk] at this
  exact this.2

theorem Inv.inum_lt (h : Inv g s) (hk : 0 < (s.icache k).ref) :
    (s.icache k).inum < g.sb.ninodes := (h.cache.slot k hk).2.2

section

variable (h : Inv g s) (hk : k ∈ g.locks)

include h hk

theorem Inv.din_eq : (s.icache k).din = s.dinode (s.icache k).inum :=
  h.cache.coherent k (h.cache.locked k hk).1 (h.cache.locked k hk).2

theorem Inv.absNode_din :
    absNode s.blk (s.icache k).din = g.node (s.icache k).inum := by
  rw [h.din_eq hk, h.disk.node_eq _ (h.inum_lt (h.cache.locked k hk).1)]

theorem Inv.locked_type : (g.node (s.icache k).inum).type ≠ 0 :=
  h.cache.loaded k (h.cache.locked k hk).1 (h.cache.locked k hk).2

theorem Inv.din_type :
    (s.icache k).din.type = (g.node (s.icache k).inum).type := by
  rw [← h.absNode_din hk]
  rfl

theorem Inv.din_nlink :
    (s.icache k).din.nlink = (g.node (s.icache k).inum).nlink := by
  rw [← h.absNode_din hk]
  rfl

theorem Inv.din_size :
    (s.icache k).din.size.toNat = (g.node (s.icache k).inum).size := by
  rw [← h.absNode_din hk]
  rfl

end

theorem Inv.lock_none (h : Inv g s) (hk : k ∉ g.locks) : (s.icache k).lock = none := by
  rw [h.cache.lock_eq, if_neg hk]

end Xv6
