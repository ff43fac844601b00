import Xv6.Param
import Xv6.Lib.Bytes
import Mathlib.Data.Nat.Bitwise

/-!
# The disk format

A disk block is `BSIZE` bytes. The kernel and `mkfs` read structures out of a
block by casting its address. Each cast is a pair of a getter and a setter
here: the `uint` at index `j` (indirect blocks, the log header), the `dinode` at
index `k` (inode blocks) and the bit at index `bi` (the free map).
-/

namespace Xv6

open Bytes

/-- The contents of a disk block. -/
abbrev Block : Type := Buf BSIZE

/-- `memset(data, 0, BSIZE)`. -/
def zeroBlock : Block := fun _ => 0

@[simp] theorem byte_zeroBlock (i : Nat) : byte zeroBlock i = 0 := by
  by_cases h : i < BSIZE
  · rw [byte_of_lt _ h, zeroBlock]
  · exact byte_of_le _ (by omega)

structure Superblock where
  /-- Size of the file system image in blocks. -/
  size : Nat
  nblocks : Nat
  ninodes : Nat
  nlog : Nat
  /-- Block number of the first log block. -/
  logstart : Nat
  /-- Block number of the first inode block. -/
  inodestart : Nat
  /-- Block number of the first free map block. -/
  bmapstart : Nat
deriving DecidableEq, Repr

/-- `IBLOCK`: the block that holds inode `i`. -/
def Superblock.iblock (sb : Superblock) (i : Nat) : Nat := i / IPB + sb.inodestart

/-- `BBLOCK`: the block of the free map that holds the bit of block `b`. -/
def Superblock.bblock (sb : Superblock) (b : Nat) : Nat := b / BPB + sb.bmapstart

/-! ## Words -/

/-- `((uint*)data)[j]`. -/
def Block.uint (b : Block) (j : Nat) : UInt32 := UInt32.ofNat (getLE b (4 * j) 4)

/-- `((uint*)data)[j] = v`. -/
def Block.setUint (b : Block) (j : Nat) (v : UInt32) : Block := setLE b (4 * j) 4 v.toNat

@[simp] theorem Block.uint_setUint_same (b : Block) {j : Nat} (v : UInt32) (h : j < NINDIRECT) :
    (b.setUint j v).uint j = v := by
  have hv : v.toNat < 256 ^ 4 := v.toNat_lt
  rw [Block.uint, Block.setUint, getLE_setLE_same b v.toNat (by simp only [BSIZE, NINDIRECT] at *; omega),
    Nat.mod_eq_of_lt hv, UInt32.ofNat_toNat]

theorem Block.uint_setUint_ne (b : Block) {j k : Nat} (v : UInt32) (h : k ≠ j) :
    (b.setUint j v).uint k = b.uint k := by
  rw [Block.uint, Block.setUint, getLE_setLE_disjoint b v.toNat (by omega), Block.uint]

@[simp] theorem Block.uint_zeroBlock (j : Nat) : Block.uint zeroBlock j = 0 := by
  have h : getLE zeroBlock (4 * j) 4 = 0 % 256 ^ 4 := by
    apply getLE_eq_of_bytes
    intro i _
    simp [leByte]
  rw [Block.uint, h]
  rfl

/-! ## Inodes -/

structure Dinode where
  type : Int16
  /-- Major device number (`T_DEV` only). -/
  major : Int16
  /-- Minor device number (`T_DEV` only). -/
  minor : Int16
  nlink : Int16
  size : UInt32
  /-- Data block addresses. -/
  addrs : Vector UInt32 (NDIRECT + 1)
deriving DecidableEq, Repr

abbrev T_DIR : Int16 := 1
abbrev T_FILE : Int16 := 2
abbrev T_DEV : Int16 := 3

/-- `memset(dip, 0, sizeof(*dip))`. -/
def Dinode.zero : Dinode := ⟨0, 0, 0, 0, 0, Vector.replicate (NDIRECT + 1) 0⟩

/-- A `short` as the sixteen bits it is stored in. -/
def shortBits (x : Int16) : Nat := x.toBitVec.toNat

/-- The `short` stored in sixteen bits. -/
def shortOfBits (v : Nat) : Int16 := Int16.ofBitVec (BitVec.ofNat 16 v)

theorem shortOfBits_shortBits (x : Int16) : shortOfBits (shortBits x) = x := by
  simp [shortOfBits, shortBits]

theorem shortBits_lt (x : Int16) : shortBits x < 256 ^ 2 := x.toBitVec.isLt

/-- `((struct dinode*)data)[k]`. -/
def Block.dinode (b : Block) (k : Nat) : Dinode where
  type := shortOfBits (getLE b (64 * k) 2)
  major := shortOfBits (getLE b (64 * k + 2) 2)
  minor := shortOfBits (getLE b (64 * k + 4) 2)
  nlink := shortOfBits (getLE b (64 * k + 6) 2)
  size := UInt32.ofNat (getLE b (64 * k + 8) 4)
  addrs := Vector.ofFn fun i => UInt32.ofNat (getLE b (64 * k + 12 + 4 * i.val) 4)

/-- The bytes of an inode, in the order the compiler lays the fields out. -/
def Dinode.bytes (d : Dinode) (i : Nat) : UInt8 :=
  if i < 2 then leByte (shortBits d.type) i
  else if i < 4 then leByte (shortBits d.major) (i - 2)
  else if i < 6 then leByte (shortBits d.minor) (i - 4)
  else if i < 8 then leByte (shortBits d.nlink) (i - 6)
  else if i < 12 then leByte d.size.toNat (i - 8)
  else leByte (d.addrs[(i - 12) / 4]?.getD 0).toNat ((i - 12) % 4)

/-- `((struct dinode*)data)[k] = d`. -/
def Block.setDinode (b : Block) (k : Nat) (d : Dinode) : Block := overlay b (64 * k) 64 d.bytes

theorem getLE_setDinode (b : Block) {k : Nat} (d : Dinode) (h : k < IPB) {o w v : Nat}
    (ho : o + w ≤ 64) (hb : ∀ i < w, d.bytes (o + i) = leByte v i) (hv : v < 256 ^ w) :
    getLE (b.setDinode k d) (64 * k + o) w = v := by
  rw [← Nat.mod_eq_of_lt hv]
  apply getLE_eq_of_bytes
  intro i hi
  have hk : 64 * k + 64 ≤ BSIZE := by simp only [BSIZE, IPB] at *; omega
  rw [Nat.add_assoc, Block.setDinode, byte_overlay_in b d.bytes (by omega) hk, hb i hi]

@[simp] theorem Block.dinode_setDinode_same (b : Block) {k : Nat} (d : Dinode) (h : k < IPB) :
    (b.setDinode k d).dinode k = d := by
  have ht : getLE (b.setDinode k d) (64 * k) 2 = shortBits d.type :=
    getLE_setDinode b d h (o := 0) (by omega)
      (fun i hi => by rw [Dinode.bytes, if_pos (by omega), Nat.zero_add]) (shortBits_lt _)
  have hM : getLE (b.setDinode k d) (64 * k + 2) 2 = shortBits d.major :=
    getLE_setDinode b d h (by omega)
      (fun i hi => by
        rw [Dinode.bytes, if_neg (by omega), if_pos (by omega), Nat.add_sub_cancel_left])
      (shortBits_lt _)
  have hm : getLE (b.setDinode k d) (64 * k + 4) 2 = shortBits d.minor :=
    getLE_setDinode b d h (by omega)
      (fun i hi => by
        rw [Dinode.bytes, if_neg (by omega), if_neg (by omega), if_pos (by omega),
          Nat.add_sub_cancel_left])
      (shortBits_lt _)
  have hn : getLE (b.setDinode k d) (64 * k + 6) 2 = shortBits d.nlink :=
    getLE_setDinode b d h (by omega)
      (fun i hi => by
        rw [Dinode.bytes, if_neg (by omega), if_neg (by omega), if_neg (by omega),
          if_pos (by omega), Nat.add_sub_cancel_left])
      (shortBits_lt _)
  have hs : getLE (b.setDinode k d) (64 * k + 8) 4 = d.size.toNat :=
    getLE_setDinode b d h (by omega)
      (fun i hi => by
        rw [Dinode.bytes, if_neg (by omega), if_neg (by omega), if_neg (by omega),
          if_neg (by omega), if_pos (by omega), Nat.add_sub_cancel_left])
      d.size.toNat_lt
  have ha : ∀ i (hi : i < NDIRECT + 1),
      getLE (b.setDinode k d) (64 * k + 12 + 4 * i) 4 = d.addrs[i].toNat := by
    intro i hi
    rw [Nat.add_assoc]
    simp only [NDIRECT] at hi
    refine getLE_setDinode b d h (by omega) (fun j hj => ?_) (d.addrs[i].toNat_lt)
    rw [Dinode.bytes, if_neg (by omega), if_neg (by omega), if_neg (by omega), if_neg (by omega),
      if_neg (by omega), show (12 + 4 * i + j - 12) / 4 = i by omega,
      show (12 + 4 * i + j - 12) % 4 = j by omega]
    simp [hi]
  have hv : (Vector.ofFn fun i : Fin (NDIRECT + 1) =>
      UInt32.ofNat (getLE (b.setDinode k d) (64 * k + 12 + 4 * i.val) 4)) = d.addrs := by
    apply Vector.ext
    intro i hi
    rw [Vector.getElem_ofFn, ha i hi, UInt32.ofNat_toNat]
  rw [Block.dinode, ht, hM, hm, hn, hs, hv]
  simp only [shortOfBits_shortBits, UInt32.ofNat_toNat]

theorem Block.dinode_setDinode_ne (b : Block) {j k : Nat} (d : Dinode) (h : k ≠ j) :
    (b.setDinode j d).dinode k = b.dinode k := by
  have hf : ∀ o w, o + w ≤ 64 →
      getLE (b.setDinode j d) (64 * k + o) w = getLE b (64 * k + o) w := by
    intro o w ho
    exact getLE_overlay_disjoint b d.bytes (by omega)
  have h0 := hf 0 2 (by omega)
  rw [Nat.add_zero] at h0
  have ha : ∀ i : Fin (NDIRECT + 1), getLE (b.setDinode j d) (64 * k + 12 + 4 * i.val) 4
      = getLE b (64 * k + 12 + 4 * i.val) 4 := by
    intro i
    have hi := i.isLt
    simp only [NDIRECT] at hi
    rw [Nat.add_assoc]
    exact hf (12 + 4 * i.val) 4 (by omega)
  simp only [Block.dinode, h0, hf 2 2 (by omega), hf 4 2 (by omega), hf 6 2 (by omega),
    hf 8 4 (by omega), ha]

/-! ## Bits -/

/-- `1 << (bi % 8)`. -/
def bitMask (bi : Nat) : UInt8 := 1 <<< UInt8.ofNat (bi % 8)

/-- `(data[bi/8] & m) != 0` with `m = 1 << (bi % 8)`. -/
def Block.bit (b : Block) (bi : Nat) : Bool := byte b (bi / 8) &&& bitMask bi != 0

/-- `data[bi/8] |= m`. -/
def Block.setBit (b : Block) (bi : Nat) : Block :=
  overlay b (bi / 8) 1 fun _ => byte b (bi / 8) ||| bitMask bi

/-- `data[bi/8] &= ~m`. -/
def Block.clearBit (b : Block) (bi : Nat) : Block :=
  overlay b (bi / 8) 1 fun _ => byte b (bi / 8) &&& ~~~ bitMask bi

theorem getLsbD_bitMask (bi : Nat) {k : Nat} (hk : k < 8) :
    (bitMask bi).toBitVec.getLsbD k = decide (k = bi % 8) := by
  have h : ∀ m < 8, ∀ k < 8,
      ((1 : UInt8) <<< UInt8.ofNat m).toBitVec.getLsbD k = decide (k = m) := by decide
  exact h (bi % 8) (Nat.mod_lt _ (by omega)) k hk

theorem and_bitMask_ne_zero (x : UInt8) (bi : Nat) :
    (x &&& bitMask bi != 0) = x.toBitVec.getLsbD (bi % 8) := by
  have h : bi % 8 < 8 := Nat.mod_lt _ (by omega)
  cases hx : x.toBitVec.getLsbD (bi % 8) with
  | true =>
    rw [bne_iff_ne]
    intro h0
    have hb := congrArg (fun y : UInt8 => y.toBitVec.getLsbD (bi % 8)) h0
    simp [getLsbD_bitMask bi h, hx] at hb
  | false =>
    rw [bne_eq_false_iff_eq]
    apply UInt8.eq_of_toBitVec_eq
    apply BitVec.eq_of_getLsbD_eq
    intro k hk
    by_cases he : k = bi % 8
    · subst he; simp [hx]
    · simp [getLsbD_bitMask bi hk, he]

theorem Block.bit_eq (b : Block) (bi : Nat) :
    b.bit bi = (byte b (bi / 8)).toBitVec.getLsbD (bi % 8) := and_bitMask_ne_zero _ bi

theorem Block.bit_overlay (b : Block) {i bj : Nat} (x : UInt8) (h : i < BSIZE) :
    Block.bit (overlay b i 1 fun _ => x) bj =
      if bj / 8 = i then x.toBitVec.getLsbD (bj % 8) else b.bit bj := by
  rw [Block.bit_eq, Block.bit_eq]
  by_cases hj : bj / 8 = i
  · have hb : byte (overlay b i 1 fun _ => x) (i + 0) = x :=
      byte_overlay_in b (fun _ => x) (by omega) (by omega)
    rw [Nat.add_zero] at hb
    rw [if_pos hj, hj, hb]
  · rw [if_neg hj, byte_overlay_out b _ (by omega)]

theorem Block.bit_setBit (b : Block) {bi : Nat} (bj : Nat) (h : bi < BPB) :
    (b.setBit bi).bit bj = (b.bit bj || decide (bj = bi)) := by
  have hm : bj % 8 < 8 := Nat.mod_lt _ (by omega)
  rw [Block.setBit, Block.bit_overlay b _ (by simp only [BPB, BSIZE] at *; omega)]
  by_cases hj : bj / 8 = bi / 8
  · rw [if_pos hj, Block.bit_eq, hj, UInt8.toBitVec_or, BitVec.getLsbD_or, getLsbD_bitMask bi hm]
    congr 2
    exact propext ⟨fun h1 => by omega, fun h1 => by rw [h1]⟩
  · rw [if_neg hj]
    have hne : bj ≠ bi := fun h1 => hj (by rw [h1])
    simp [hne]

theorem Block.bit_clearBit (b : Block) {bi : Nat} (bj : Nat) (h : bi < BPB) :
    (b.clearBit bi).bit bj = (b.bit bj && !decide (bj = bi)) := by
  have hm : bj % 8 < 8 := Nat.mod_lt _ (by omega)
  rw [Block.clearBit, Block.bit_overlay b _ (by simp only [BPB, BSIZE] at *; omega)]
  by_cases hj : bj / 8 = bi / 8
  · rw [if_pos hj, Block.bit_eq, hj, UInt8.toBitVec_and, BitVec.getLsbD_and, UInt8.toBitVec_not,
      BitVec.getLsbD_not, getLsbD_bitMask bi hm]
    simp only [hm, decide_true, Bool.true_and]
    congr 3
    exact propext ⟨fun h1 => by omega, fun h1 => by rw [h1]⟩
  · rw [if_neg hj]
    have hne : bj ≠ bi := fun h1 => hj (by rw [h1])
    simp [hne]

end Xv6
