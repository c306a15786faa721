import Mathlib.Data.Set.Insert
import Qnixx.Bitmap

/- The bitmap as a set of numbers: `bitmap_set_bit` inserts, `bitmap_unset_bit`
   removes and `bitmap_test_bit` asks. The laws of a set hold at a number iff
   the test's shift count is below 8, which is so in the first of every four
   bytes. -/
namespace Qnixx

inductive BitOp where
  | set (bit : Nat)
  | unset (bit : Nat)

def BitOp.apply (bitmap : Bitmap) : BitOp → Bitmap
  | set bit => bitmapSetBit bitmap bit
  | unset bit => bitmapUnsetBit bitmap bit

/-- The numbers the test finds. -/
def members (bitmap : Bitmap) : Set Nat := {bit | bitmapTestBit bitmap bit ≠ 0}

/-- What the operations do to a set. -/
def BitOp.applySet (s : Set Nat) : BitOp → Set Nat
  | set bit => insert bit s
  | unset bit => s \ {bit}

theorem mem_members {bitmap : Bitmap} {bit : Nat} :
    bit ∈ members bitmap ↔ Bitmap.bit bitmap bit = true ∧ bit % 32 < 8 := testBit_ne_zero bitmap bit

/-- The test sees nothing of a bitmap but the bit it asks for. -/
theorem testBit_congr {bitmap bitmap' : Bitmap} {bit : Nat}
    (h : Bitmap.bit bitmap bit = Bitmap.bit bitmap' bit) :
    bitmapTestBit bitmap bit = bitmapTestBit bitmap' bit := by
  apply BitVec.eq_of_getLsbD_eq
  intro k hk
  rw [testBit_getLsbD bitmap bit hk, testBit_getLsbD bitmap' bit hk, h]

theorem testBit_set_other (bitmap : Bitmap) {bit other : Nat} (h : other ≠ bit) :
    bitmapTestBit (bitmapSetBit bitmap bit) other = bitmapTestBit bitmap other := by
  apply testBit_congr
  rw [bit_set, decide_eq_false (Ne.symm h), Bool.false_or]

theorem testBit_unset_other (bitmap : Bitmap) {bit other : Nat} (h : other ≠ bit) :
    bitmapTestBit (bitmapUnsetBit bitmap bit) other = bitmapTestBit bitmap other := by
  apply testBit_congr
  rw [bit_unset, decide_eq_false (Ne.symm h), Bool.not_false, Bool.true_and]

theorem testBit_unset_self (bitmap : Bitmap) (bit : Nat) :
    bitmapTestBit (bitmapUnsetBit bitmap bit) bit = 0 := by
  apply Classical.byContradiction
  intro h
  have hbit := ((testBit_ne_zero _ _).mp h).1
  rw [bit_unset, decide_eq_true rfl] at hbit
  cases hbit

theorem testBit_set_self (bitmap : Bitmap) (bit : Nat) :
    bitmapTestBit (bitmapSetBit bitmap bit) bit ≠ 0 ↔ bit % 32 < 8 := by
  rw [testBit_ne_zero, bit_set, decide_eq_true rfl, Bool.true_or]
  simp

/-- One operation does to the members what it does to a set. -/
theorem mem_apply {bit : Nat} (hlow : bit % 32 < 8) (bitmap : Bitmap) (op : BitOp) :
    bit ∈ members (op.apply bitmap) ↔ bit ∈ op.applySet (members bitmap) := by
  cases op with
  | set i =>
    rw [BitOp.applySet, Set.mem_insert_iff, mem_members, mem_members, BitOp.apply, bit_set]
    by_cases hi : i = bit
    · simp [hi, hlow]
    · simp [hi, Ne.symm hi]
  | unset i =>
    rw [BitOp.applySet, Set.mem_sdiff, Set.mem_singleton_iff, mem_members, mem_members, BitOp.apply,
      bit_unset]
    by_cases hi : i = bit
    · simp [hi]
    · simp [hi, Ne.symm hi]

/-- Whether a number is in a set after an operation depends only on whether it
    was before. -/
theorem mem_applySet_congr {bit : Nat} {s t : Set Nat} (h : bit ∈ s ↔ bit ∈ t) (op : BitOp) :
    bit ∈ op.applySet s ↔ bit ∈ op.applySet t := by
  cases op with
  | set i => rw [BitOp.applySet, BitOp.applySet, Set.mem_insert_iff, Set.mem_insert_iff, h]
  | unset i => rw [BitOp.applySet, BitOp.applySet, Set.mem_sdiff, Set.mem_sdiff, h]

theorem mem_run {bit : Nat} (hlow : bit % 32 < 8) {bitmap : Bitmap} {s : Set Nat} (ops : List BitOp)
    (h : bit ∈ members bitmap ↔ bit ∈ s) :
    bit ∈ members (ops.foldl BitOp.apply bitmap) ↔ bit ∈ ops.foldl BitOp.applySet s := by
  induction ops generalizing bitmap s with
  | nil => exact h
  | cons op ops ih =>
    rw [List.foldl_cons, List.foldl_cons]
    apply ih
    exact (mem_apply hlow bitmap op).trans (mem_applySet_congr h op)

/-- The laws of a set at one number, for every content of the bitmap; the last
    one is about any sequence of operations. -/
structure SetLaws (bit : Nat) : Prop where
  set : ∀ bitmap, bitmapTestBit (bitmapSetBit bitmap bit) bit ≠ 0
  unset : ∀ bitmap, bitmapTestBit (bitmapUnsetBit bitmap bit) bit = 0
  others : ∀ bitmap other, other ≠ bit →
    bitmapTestBit (bitmapSetBit bitmap bit) other = bitmapTestBit bitmap other ∧
      bitmapTestBit (bitmapUnsetBit bitmap bit) other = bitmapTestBit bitmap other
  history : ∀ bitmap (ops : List BitOp),
    bit ∈ members (ops.foldl BitOp.apply bitmap) ↔ bit ∈ ops.foldl BitOp.applySet (members bitmap)

/-- **The bitmap is a set where the shift is small.** At every number and for
    every bitmap, setting, clearing and testing are the operations of a set iff
    the number is below 8 modulo 32. -/
theorem bitmap_is_set_iff (bit : Nat) : SetLaws bit ↔ bit % 32 < 8 := by
  refine ⟨?_, ?_⟩
  · intro h
    exact (testBit_set_self (fun _ => 0) bit).mp (h.set _)
  · intro hlow
    refine ⟨?_, ?_, ?_, ?_⟩
    · intro bitmap
      exact (testBit_set_self bitmap bit).mpr hlow
    · intro bitmap
      exact testBit_unset_self bitmap bit
    · intro bitmap other hne
      exact ⟨testBit_set_other bitmap hne, testBit_unset_other bitmap hne⟩
    · intro bitmap ops
      exact mem_run hlow ops Iff.rfl

/-- Bit 8 of two bytes of zeros reads as zero after it was set. -/
theorem bit_eight_reads_zero :
    bitmapTestBit (bitmapSetBit (fun _ => 0) 8) 8 = 0 ∧ ¬ SetLaws 8 := by
  have hzero : bitmapTestBit (bitmapSetBit (fun _ => 0) 8) 8 = 0 := by decide
  exact ⟨hzero, fun h => h.set _ hzero⟩

end Qnixx
