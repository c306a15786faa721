import Mathlib.Tactic.Common

/- Cyclic redundancy codes whose lowest bit is shifted out first. `shift` divides
   by the polynomial for one bit and `feed` for the eight bits of an octet.
   Shifting is linear in exclusive or, so `feed` can be read off a table of the
   256 octets (`feed_eq_table`): of the remainder only its lowest octet can make
   a shift subtract the polynomial. -/
namespace Crc

variable {w : Nat}

def shift (poly c : BitVec w) : BitVec w :=
  if c.getLsbD 0 then (c >>> 1) ^^^ poly else c >>> 1

def shifts (poly : BitVec w) : Nat → BitVec w → BitVec w
  | 0, c => c
  | n + 1, c => shift poly (shifts poly n c)

/-- The remainder `c` after one more octet. -/
def feed (poly c : BitVec w) (b : BitVec 8) : BitVec w := shifts poly 8 (c ^^^ b.setWidth w)

def crc (poly : BitVec w) (bytes : List (BitVec 8)) : BitVec w := bytes.foldl (feed poly) 0

theorem shift_xor (poly a b : BitVec w) : shift poly (a ^^^ b) = shift poly a ^^^ shift poly b := by
  have htwice : a >>> 1 ^^^ poly ^^^ (b >>> 1 ^^^ poly) = a >>> 1 ^^^ b >>> 1 := by
    rw [BitVec.xor_comm (b >>> 1) poly, BitVec.xor_assoc, ← BitVec.xor_assoc poly, BitVec.xor_self,
      BitVec.zero_xor]
  simp only [shift, BitVec.getLsbD_xor, BitVec.ushiftRight_xor_distrib]
  cases a.getLsbD 0 with
  | false =>
    cases b.getLsbD 0 with
    | false => rfl
    | true => exact BitVec.xor_assoc _ _ _
  | true =>
    cases b.getLsbD 0 with
    | false =>
      show a >>> 1 ^^^ b >>> 1 ^^^ poly = a >>> 1 ^^^ poly ^^^ b >>> 1
      rw [BitVec.xor_assoc, BitVec.xor_comm (b >>> 1), BitVec.xor_assoc]
    | true => exact htwice.symm

theorem shifts_xor (poly : BitVec w) (n : Nat) (a b : BitVec w) :
    shifts poly n (a ^^^ b) = shifts poly n a ^^^ shifts poly n b := by
  induction n with
  | zero => rfl
  | succ n ih => rw [shifts, ih, shift_xor, shifts, shifts]

/-- As long as the bits that leave are clear, shifts only move. -/
theorem shifts_of_clear (poly : BitVec w) {n : Nat} {c : BitVec w} (h : ∀ i < n, c.getLsbD i = false) :
    shifts poly n c = c >>> n := by
  induction n with
  | zero => exact (BitVec.ushiftRight_zero c).symm
  | succ n ih =>
    have hlow : (c >>> n).getLsbD 0 = false := by
      rw [BitVec.getLsbD_ushiftRight]
      exact h n (by omega)
    rw [shifts, ih (fun i hi => h i (by omega)), shift, hlow, if_neg Bool.false_ne_true,
      ← BitVec.shiftRight_add]

/-- The bits of a remainder above its lowest octet. -/
def high (c : BitVec w) : BitVec w := c >>> 8 <<< 8

theorem getLsbD_high (c : BitVec w) (i : Nat) : (high c).getLsbD i = (decide (8 ≤ i) && c.getLsbD i) := by
  rw [high, BitVec.getLsbD_shiftLeft, BitVec.getLsbD_ushiftRight]
  by_cases hi : 8 ≤ i
  · rw [show 8 + (i - 8) = i by omega]
    by_cases hw : i < w
    · simp [hi, hw]
    · simp [hi, hw, BitVec.getLsbD_of_ge c i (by omega)]
  · simp [hi, show i < 8 by omega]

theorem high_xor_low (c : BitVec w) : c = high c ^^^ (c.setWidth 8).setWidth w := by
  apply BitVec.eq_of_getLsbD_eq
  intro i hi
  rw [BitVec.getLsbD_xor, getLsbD_high, BitVec.getLsbD_setWidth, BitVec.getLsbD_setWidth]
  by_cases hlow : 8 ≤ i
  · simp [hlow, show ¬ i < 8 by omega]
  · simp [hlow, hi, show i < 8 by omega]

theorem high_ushiftRight (c : BitVec w) : high c >>> 8 = c >>> 8 := by
  apply BitVec.eq_of_getLsbD_eq
  intro i _
  rw [BitVec.getLsbD_ushiftRight, getLsbD_high, BitVec.getLsbD_ushiftRight]
  simp

/-- An octet at a time: the entry of a table for the lowest octet, and the rest
    moved down. -/
theorem feed_eq_table (poly c : BitVec w) (b : BitVec 8) (table : BitVec 8 → BitVec w)
    (htable : ∀ i, table i = shifts poly 8 (i.setWidth w)) :
    feed poly c b = table (c.setWidth 8 ^^^ b) ^^^ (c >>> 8) := by
  have hclear : ∀ i < 8, (high c).getLsbD i = false := by
    intro i hi
    rw [getLsbD_high, decide_eq_false (by omega), Bool.false_and]
  have hoctets : c ^^^ b.setWidth w = high c ^^^ (c.setWidth 8 ^^^ b).setWidth w := by
    rw [BitVec.setWidth_xor, ← BitVec.xor_assoc, ← high_xor_low]
  rw [feed, hoctets, shifts_xor, shifts_of_clear poly hclear, high_ushiftRight, BitVec.xor_comm, htable]

end Crc
