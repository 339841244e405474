import Mathlib.Data.Nat.Bitwise
import Mathlib.Tactic.Ring
/-!
# Byte buffers

A buffer is its bytes by offset. Copies are by range (`blit`), and a
buffer is read as an array of little-endian 32-bit words (`word`,
`setWord`) or as a bitmap (`bit`, `setBit`, `clearBit`). The lemmas say
what a read sees of a write, at the same place and at another.
-/

namespace OsLab

/-- The bytes of a buffer, by offset. -/
abbrev Bytes := ℕ → UInt8

namespace Bytes

/-- `memset` of a whole buffer. -/
def fill (v : UInt8) : Bytes := fun _ => v

/-- `memcpy` of `n` bytes of `src` from `soff` into `dst` at `doff`. -/
def blit (dst : Bytes) (doff : ℕ) (src : Bytes) (soff n : ℕ) : Bytes := fun i =>
  if doff ≤ i ∧ i < doff + n then src (soff + (i - doff)) else dst i

@[simp] theorem fill_apply (v : UInt8) (i : ℕ) : fill v i = v := rfl

theorem blit_of_mem {dst src : Bytes} {doff soff n i : ℕ} (h : doff ≤ i) (h' : i < doff + n) :
    blit dst doff src soff n i = src (soff + (i - doff)) := if_pos ⟨h, h'⟩

theorem blit_of_not_mem {dst src : Bytes} {doff soff n i : ℕ} (h : i < doff ∨ doff + n ≤ i) :
    blit dst doff src soff n i = dst i := if_neg (by omega)

/-! ## Words -/

/-- Byte `j` of a little-endian word. -/
def byteOf (w : UInt32) (j : ℕ) : UInt8 := UInt8.ofNat (w.toNat / 256 ^ j)

/-- The little-endian word at word index `k`. -/
def word (b : Bytes) (k : ℕ) : UInt32 :=
  UInt32.ofNat ((b (4 * k)).toNat + 256 * (b (4 * k + 1)).toNat +
    65536 * (b (4 * k + 2)).toNat + 16777216 * (b (4 * k + 3)).toNat)

/-- Store a word at word index `k`. -/
def setWord (b : Bytes) (k : ℕ) (w : UInt32) : Bytes := fun i =>
  if i / 4 = k then byteOf w (i % 4) else b i

/-- The bytes of an array of words. -/
def ofWords (ws : ℕ → UInt32) : Bytes := fun i => byteOf (ws (i / 4)) (i % 4)

variable {b : Bytes} {k : ℕ} {w : UInt32}

/-- Four bytes of a word give the word back. -/
theorem word_of_byteOf (h : ∀ j < 4, b (4 * k + j) = byteOf w j) : word b k = w := by
  have h0 := h 0 (by omega)
  have h1 := h 1 (by omega)
  have h2 := h 2 (by omega)
  have h3 := h 3 (by omega)
  have hw := w.toNat_lt
  apply UInt32.toNat_inj.mp
  simp only [Nat.add_zero] at h0
  simp only [word, h0, h1, h2, h3, byteOf, UInt32.toNat_ofNat', UInt8.toNat_ofNat']
  norm_num
  omega

@[simp] theorem word_setWord_self : word (setWord b k w) k = w := by
  apply word_of_byteOf
  intro j hj
  have h1 : (4 * k + j) / 4 = k := by omega
  have h2 : (4 * k + j) % 4 = j := by omega
  rw [setWord, if_pos h1, h2]

/-- A word reads only its own four bytes. -/
theorem word_congr {b' : Bytes} (h : ∀ i, 4 * k ≤ i → i < 4 * k + 4 → b i = b' i) :
    word b k = word b' k := by
  unfold word
  rw [h _ (by omega) (by omega), h _ (by omega) (by omega), h _ (by omega) (by omega),
    h _ (by omega) (by omega)]

theorem word_setWord_of_ne {k' : ℕ} (h : k' ≠ k) : word (setWord b k w) k' = word b k' := by
  apply word_congr
  intro i h1 h2
  rw [setWord, if_neg (by omega)]

@[simp] theorem word_fill_ff : word (fill 0xff) k = 0xffffffff := by
  simp only [word, fill_apply]
  decide

/-! ## Bits -/

/-- Bit `o` of a bitmap. -/
def bit (b : Bytes) (o : ℕ) : Bool := (b (o / 8)).toNat.testBit (o % 8)

/-- Set bit `o`. -/
def setBit (b : Bytes) (o : ℕ) : Bytes := fun i =>
  if i = o / 8 then b i ||| UInt8.ofNat (2 ^ (o % 8)) else b i

/-- Clear bit `o`. -/
def clearBit (b : Bytes) (o : ℕ) : Bytes := fun i =>
  if i = o / 8 then b i &&& ~~~ UInt8.ofNat (2 ^ (o % 8)) else b i

theorem toNat_ofNat_two_pow (hk : k < 8) : (UInt8.ofNat (2 ^ k)).toNat = 2 ^ k := by
  have h : 2 ^ k ≤ 2 ^ 7 := Nat.pow_le_pow_right (by omega) (by omega)
  rw [UInt8.toNat_ofNat']
  exact Nat.mod_eq_of_lt (by omega)

theorem bit_setBit {o o' : ℕ} : bit (setBit b o) o' = (decide (o' = o) || bit b o') := by
  unfold bit setBit
  by_cases hbyte : o' / 8 = o / 8
  · rw [if_pos hbyte, UInt8.toNat_or, Nat.testBit_or, toNat_ofNat_two_pow (by omega),
      Nat.testBit_two_pow]
    have : decide (o % 8 = o' % 8) = decide (o' = o) := by rw [decide_eq_decide]; omega
    rw [this, Bool.or_comm]
  · rw [if_neg hbyte, decide_eq_false (by rintro rfl; exact hbyte rfl), Bool.false_or]

theorem bit_clearBit {o o' : ℕ} : bit (clearBit b o) o' = (decide (o' ≠ o) && bit b o') := by
  unfold bit clearBit
  by_cases hbyte : o' / 8 = o / 8
  · have hlt : 2 ^ (o % 8) < 2 ^ 8 := Nat.pow_lt_pow_right (by omega) (by omega)
    rw [if_pos hbyte, UInt8.toNat_and, Nat.testBit_and, UInt8.toNat_not,
      toNat_ofNat_two_pow (by omega)]
    have hsub : 2 ^ 8 - 1 - 2 ^ (o % 8) = 2 ^ 8 - (2 ^ (o % 8) + 1) := by omega
    have hlt8 : o' % 8 < 8 := Nat.mod_lt _ (by omega)
    have hnot : (UInt8.size - 1 - 2 ^ (o % 8)).testBit (o' % 8) = decide (o' ≠ o) := by
      change (2 ^ 8 - 1 - 2 ^ (o % 8)).testBit (o' % 8) = _
      rw [hsub, Nat.testBit_two_pow_sub_succ hlt, Nat.testBit_two_pow, decide_eq_true hlt8,
        Bool.true_and, ← decide_not, decide_eq_decide]
      omega
    rw [hnot, Bool.and_comm]
  · rw [if_neg hbyte, decide_eq_true (by rintro rfl; exact hbyte rfl), Bool.true_and]

end Bytes

end OsLab
