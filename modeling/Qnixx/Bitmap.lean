import Mathlib.Logic.Function.Basic

/- The bitmap (`libkern/bitmap.c`): a pointer to bytes, with no length, so a
   bit beyond the storage is a bit of whatever lies there. The operands of
   `&`, `|`, `<<` and `>>` are promoted to `int`.

   `bitmap_test_bit` shifts by `bit` where the others shift by `bit % 8`. The
   processor takes a 32-bit shift count modulo 32, so a bit that is set reads
   as set only when `bit % 32 < 8`: three of every four bytes always read as
   zeros (`testBit_ne_zero`). -/
namespace Qnixx

abbrev Bitmap := Nat → BitVec 8

def bitmapSetBit (bitmap : Bitmap) (bit : Nat) : Bitmap :=
  Function.update bitmap (bit / 8)
    (((bitmap (bit / 8)).setWidth 32 ||| (1#32 <<< (bit % 8))).setWidth 8)

def bitmapUnsetBit (bitmap : Bitmap) (bit : Nat) : Bitmap :=
  Function.update bitmap (bit / 8)
    (((bitmap (bit / 8)).setWidth 32 &&& ~~~(1#32 <<< (bit % 8))).setWidth 8)

def bitmapTestBit (bitmap : Bitmap) (bit : Nat) : BitVec 8 :=
  (((bitmap (bit / 8)).setWidth 32 &&& (1#32 <<< (bit % 8))).sshiftRight (bit % 32)).setWidth 8

/-- The bit itself, as `bitmap_set_bit` and `bitmap_unset_bit` write it. -/
def Bitmap.bit (bitmap : Bitmap) (bit : Nat) : Bool := (bitmap (bit / 8)).getLsbD (bit % 8)

theorem mask_bit {b k : Nat} (hk : k < 32) : (1#32 <<< b).getLsbD k = decide (k = b) := by
  rw [BitVec.getLsbD_shiftLeft]
  by_cases h : k = b
  · subst h
    simp [hk]
  · by_cases hlt : k < b
    · simp [hk, hlt, h]
    · have hpos : k - b ≠ 0 := by omega
      simp [hk, hlt, h, BitVec.getLsbD_one, hpos]

/-- A bit that shares the byte of `i` but is not `i` is another bit of it. -/
theorem bit_same_byte {i j : Nat} (h : i / 8 = j / 8) : j % 8 = i % 8 ↔ i = j := by omega

theorem bit_set (bitmap : Bitmap) (i j : Nat) :
    Bitmap.bit (bitmapSetBit bitmap i) j = (decide (i = j) || Bitmap.bit bitmap j) := by
  have hj : j % 8 < 8 := Nat.mod_lt _ (by decide)
  unfold Bitmap.bit bitmapSetBit
  by_cases hbyte : i / 8 = j / 8
  · rw [hbyte, Function.update_self, BitVec.getLsbD_setWidth, BitVec.getLsbD_or, mask_bit (by omega),
      BitVec.getLsbD_setWidth, Bool.or_comm]
    simp [hj, show j % 8 < 32 by omega, bit_same_byte hbyte]
  · have hne : i ≠ j := fun e => hbyte (by rw [e])
    rw [Function.update_of_ne (fun e => hbyte e.symm)]
    simp [hne]

theorem bit_unset (bitmap : Bitmap) (i j : Nat) :
    Bitmap.bit (bitmapUnsetBit bitmap i) j = (!decide (i = j) && Bitmap.bit bitmap j) := by
  have hj : j % 8 < 8 := Nat.mod_lt _ (by decide)
  unfold Bitmap.bit bitmapUnsetBit
  by_cases hbyte : i / 8 = j / 8
  · rw [hbyte, Function.update_self, BitVec.getLsbD_setWidth, BitVec.getLsbD_and, BitVec.getLsbD_not,
      mask_bit (by omega), BitVec.getLsbD_setWidth, Bool.and_comm]
    simp [hj, show j % 8 < 32 by omega, bit_same_byte hbyte, Bool.and_comm]
  · have hne : i ≠ j := fun e => hbyte (by rw [e])
    rw [Function.update_of_ne (fun e => hbyte e.symm)]
    simp [hne]

theorem testBit_getLsbD (bitmap : Bitmap) (i : Nat) {k : Nat} (hk : k < 8) :
    (bitmapTestBit bitmap i).getLsbD k =
      (decide (i % 32 + k = i % 8) && Bitmap.bit bitmap i) := by
  have hi : i % 8 < 8 := Nat.mod_lt _ (by decide)
  have hmsb : ((bitmap (i / 8)).setWidth 32 &&& (1#32 <<< (i % 8))).msb = false := by
    rw [BitVec.msb_eq_getLsbD_last, BitVec.getLsbD_and, mask_bit (by decide)]
    simp
  rw [bitmapTestBit, BitVec.getLsbD_setWidth, BitVec.getLsbD_sshiftRight, hmsb]
  by_cases hlt : i % 32 + k < 32
  · rw [if_pos hlt, BitVec.getLsbD_and, mask_bit hlt, BitVec.getLsbD_setWidth]
    by_cases heq : i % 32 + k = i % 8
    · have hk32 : ¬ (32 ≤ k) := by omega
      have hi32 : i % 8 < 32 := by omega
      simp [hk, heq, Bitmap.bit, hk32, hi32]
    · simp [heq]
  · have hne : i % 32 + k ≠ i % 8 := by omega
    rw [if_neg hlt]
    simp [hne]

/-- What the test sees: a set bit in the first of every four bytes. -/
theorem testBit_ne_zero (bitmap : Bitmap) (i : Nat) :
    bitmapTestBit bitmap i ≠ 0 ↔ Bitmap.bit bitmap i = true ∧ i % 32 < 8 := by
  refine ⟨?_, ?_⟩
  · intro h
    apply Classical.byContradiction
    intro hnot
    apply h
    apply BitVec.eq_of_getLsbD_eq
    intro k hk
    rw [testBit_getLsbD bitmap i hk]
    by_cases heq : i % 32 + k = i % 8
    · have hbit : Bitmap.bit bitmap i ≠ true := fun hb => hnot ⟨hb, by omega⟩
      simp [hbit]
    · simp [heq]
  · rintro ⟨hbit, hlow⟩ hzero
    have hk := testBit_getLsbD bitmap i (show 0 < 8 by decide)
    rw [hzero, hbit] at hk
    simp at hk
    omega

/-- `!bitmap_test_bit(bitmap, bit)`: the bit reads as free. -/
def readsFree (bitmap : Bitmap) (bit : Nat) : Bool := bitmapTestBit bitmap bit == 0

theorem readsFree_iff (bitmap : Bitmap) (i : Nat) :
    readsFree bitmap i = true ↔ Bitmap.bit bitmap i = false ∨ 8 ≤ i % 32 := by
  have h := testBit_ne_zero bitmap i
  rw [readsFree, beq_iff_eq]
  refine ⟨?_, ?_⟩
  · intro hz
    cases hb : Bitmap.bit bitmap i with
    | false => exact .inl rfl
    | true =>
      refine .inr ?_
      apply Classical.byContradiction
      intro hlow
      exact h.mpr ⟨hb, by omega⟩ hz
  · intro hcase
    apply Classical.byContradiction
    intro hz
    obtain ⟨hb, hlow⟩ := h.mp hz
    rcases hcase with hfree | hhigh
    · rw [hb] at hfree
      simp at hfree
    · omega

theorem readsFree_of_clear {bitmap : Bitmap} {i : Nat} (h : Bitmap.bit bitmap i = false) :
    readsFree bitmap i = true := (readsFree_iff bitmap i).mpr (.inl h)

/-! Loops that set or clear bits one after the other. -/

/-- `count` bits from `bit` on set. -/
def setBits (bitmap : Bitmap) (bit : Nat) : Nat → Bitmap
  | 0 => bitmap
  | count + 1 => setBits (bitmapSetBit bitmap bit) (bit + 1) count

def unsetBits (bitmap : Bitmap) (bit : Nat) : Nat → Bitmap
  | 0 => bitmap
  | count + 1 => unsetBits (bitmapUnsetBit bitmap bit) (bit + 1) count

theorem bit_setBits : ∀ (count : Nat) (bitmap : Bitmap) (bit j : Nat),
    Bitmap.bit (setBits bitmap bit count) j =
      (decide (bit ≤ j ∧ j < bit + count) || Bitmap.bit bitmap j)
  | 0, bitmap, bit, j => by
    have hno : ¬ (bit ≤ j ∧ j < bit + 0) := by omega
    rw [decide_eq_false hno, Bool.false_or, setBits]
  | count + 1, bitmap, bit, j => by
    rw [setBits, bit_setBits count, bit_set, ← Bool.or_assoc]
    congr 1
    rw [← Bool.decide_or]
    exact decide_eq_decide.mpr (by omega)

theorem bit_unsetBits : ∀ (count : Nat) (bitmap : Bitmap) (bit j : Nat),
    Bitmap.bit (unsetBits bitmap bit count) j =
      (!decide (bit ≤ j ∧ j < bit + count) && Bitmap.bit bitmap j)
  | 0, bitmap, bit, j => by
    have hno : ¬ (bit ≤ j ∧ j < bit + 0) := by omega
    rw [decide_eq_false hno, Bool.not_false, Bool.true_and, unsetBits]
  | count + 1, bitmap, bit, j => by
    rw [unsetBits, bit_unsetBits count, bit_unset, ← Bool.and_assoc]
    congr 1
    rw [← Bool.not_or, ← Bool.decide_or]
    exact congrArg _ (decide_eq_decide.mpr (by omega))

end Qnixx
