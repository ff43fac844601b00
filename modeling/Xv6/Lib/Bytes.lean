import Mathlib.Data.Nat.Basic
import Mathlib.Tactic.Ring

/-!
# Byte buffers and little-endian fields

A buffer is an array of bytes, as a function of the index. A C program reads a
struct out of a buffer by casting its address, and that is a fixed set of fields
at fixed offsets. Two
operations cover the casts. `getLE b off w` is the value of the `w` bytes at
`off`, least significant first, and `setLE b off w v` stores `v` there.

`overlay` copies bytes into a range of a buffer, as `memmove` does. Everything
else is stated through `byte`, the byte at a position, so a proof about a field
never looks at the bound of the buffer.
-/

namespace Bytes

/-- An array of `n` bytes. -/
abbrev Buf (n : Nat) : Type := Fin n → UInt8

variable {n : Nat}

/-! ## Bytes and copies -/

/-- The byte of `b` at position `i`, zero past the end. -/
def byte (b : Buf n) (i : Nat) : UInt8 := if h : i < n then b ⟨i, h⟩ else 0

/-- The buffer `b` with the bytes `src 0, .., src (len - 1)` copied to `off`. -/
def overlay (b : Buf n) (off len : Nat) (src : Nat → UInt8) : Buf n :=
  fun i => if off ≤ i.val ∧ i.val < off + len then src (i.val - off) else b i

variable {i : Nat}

theorem byte_of_lt (b : Buf n) (h : i < n) : byte b i = b ⟨i, h⟩ := dif_pos h

theorem byte_of_le (b : Buf n) (h : n ≤ i) : byte b i = 0 :=
  dif_neg (by omega)

theorem ext_byte {a b : Buf n} (h : ∀ i < n, byte a i = byte b i) : a = b := by
  funext i
  have := h i i.isLt
  rwa [byte_of_lt a i.isLt, byte_of_lt b i.isLt] at this

theorem byte_overlay (b : Buf n) (off len : Nat) (src : Nat → UInt8) (hi : i < n) :
    byte (overlay b off len src) i = if off ≤ i ∧ i < off + len then src (i - off) else byte b i := by
  rw [byte_of_lt _ hi, byte_of_lt _ hi, overlay]

variable {off len : Nat}

theorem byte_overlay_in (b : Buf n) (src : Nat → UInt8)
    (hi : i < len) (hn : off + len ≤ n) : byte (overlay b off len src) (off + i) = src i := by
  rw [byte_overlay b off len src (by omega), if_pos (by omega), Nat.add_sub_cancel_left]

theorem byte_overlay_out (b : Buf n) (src : Nat → UInt8)
    (h : i < off ∨ off + len ≤ i) : byte (overlay b off len src) i = byte b i := by
  by_cases hi : i < n
  · rw [byte_overlay b off len src hi, if_neg (by omega)]
  · rw [byte_of_le _ (by omega), byte_of_le _ (by omega)]

/-! ## Little-endian values -/

/-- The value of the `w` bytes at `off`, least significant first. -/
def getLE (b : Buf n) : Nat → Nat → Nat
  | _, 0 => 0
  | off, w + 1 => (byte b off).toNat + 256 * getLE b (off + 1) w

/-- Byte `i` of the value `v`. -/
def leByte (v i : Nat) : UInt8 := UInt8.ofNat (v / 256 ^ i)

/-- The buffer `b` with the `w` low bytes of `v` stored at `off`. -/
def setLE (b : Buf n) (off w v : Nat) : Buf n := overlay b off w (leByte v)

theorem toNat_leByte (v i : Nat) : (leByte v i).toNat = v / 256 ^ i % 256 := by
  simp [leByte]

theorem getLE_congr {m : Nat} {a : Buf n} {b : Buf m} :
    ∀ (off off' w : Nat), (∀ i < w, byte a (off + i) = byte b (off' + i)) → getLE a off w = getLE b off' w
  | _, _, 0, _ => rfl
  | off, off', w + 1, h => by
    have h0 := h 0 (by omega)
    rw [Nat.add_zero, Nat.add_zero] at h0
    rw [getLE, getLE, h0, getLE_congr (off + 1) (off' + 1) w (fun i hi => ?_)]
    have := h (i + 1) (by omega)
    rwa [show off + (i + 1) = off + 1 + i by omega,
      show off' + (i + 1) = off' + 1 + i by omega] at this

theorem getLE_eq_of_bytes {b : Buf n} :
    ∀ {w off v : Nat}, (∀ i < w, byte b (off + i) = leByte v i) → getLE b off w = v % 256 ^ w
  | 0, _, v, _ => by simp [getLE, Nat.mod_one]
  | w + 1, off, v, h => by
    have h0 := h 0 (by omega)
    have ih : getLE b (off + 1) w = v / 256 % 256 ^ w := by
      apply getLE_eq_of_bytes
      intro i hi
      have := h (i + 1) (by omega)
      rw [show off + (i + 1) = off + 1 + i by omega] at this
      rw [this, leByte, leByte, Nat.pow_succ', Nat.div_div_eq_div_mul]
    rw [Nat.add_zero] at h0
    rw [getLE, ih, h0, toNat_leByte, Nat.pow_zero, Nat.div_one, Nat.pow_succ', Nat.mod_mul]

variable {w : Nat}

theorem getLE_setLE_same (b : Buf n) (v : Nat) (h : off + w ≤ n) :
    getLE (setLE b off w v) off w = v % 256 ^ w :=
  getLE_eq_of_bytes fun _ hi => byte_overlay_in b (leByte v) hi h

theorem getLE_overlay_disjoint (b : Buf n) {off' : Nat} (src : Nat → UInt8)
    (h : off' + w ≤ off ∨ off + len ≤ off') : getLE (overlay b off len src) off' w = getLE b off' w := by
  apply getLE_congr
  intro i hi
  exact byte_overlay_out b src (by omega)

theorem getLE_setLE_disjoint (b : Buf n) {off' w' : Nat} (v : Nat) (h : off' + w' ≤ off ∨ off + w ≤ off') :
    getLE (setLE b off w v) off' w' = getLE b off' w' :=
  getLE_overlay_disjoint b (leByte v) h

end Bytes
