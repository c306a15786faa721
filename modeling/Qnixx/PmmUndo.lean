import Mathlib.Tactic.Common
import Qnixx.Pmm

/- `pmm_alloc` and `pmm_free` as a pair, on the raw bits. The one counts in
   frames and the other in byte addresses with a page stride; below `2^52`
   frames no address wraps, and both loops cover the same frames. -/
namespace Qnixx

/-- Two bitmaps with the same bits have the same bytes. -/
theorem Bitmap.ext_bit {a b : Bitmap} (h : ∀ j, Bitmap.bit a j = Bitmap.bit b j) : a = b := by
  funext byte
  apply BitVec.eq_of_getLsbD_eq
  intro k hk
  have hbit := h (8 * byte + k)
  have hdiv : (8 * byte + k) / 8 = byte := by omega
  have hmod : (8 * byte + k) % 8 = k := by omega
  rwa [Bitmap.bit, Bitmap.bit, hdiv, hmod] at hbit

/-- The frame is one of the `n` from `s` on. -/
abbrev InRange (s n f : Nat) : Prop := s ≤ f ∧ f < s + n

theorem bit_setBits_if (bitmap : Bitmap) (s n f : Nat) :
    Bitmap.bit (setBits bitmap s n) f = if InRange s n f then true else Bitmap.bit bitmap f := by
  rw [bit_setBits]
  by_cases hf : InRange s n f
  · rw [if_pos hf, decide_eq_true hf, Bool.true_or]
  · rw [if_neg hf, decide_eq_false hf, Bool.false_or]

theorem bit_unsetBits_if (bitmap : Bitmap) (s n f : Nat) :
    Bitmap.bit (unsetBits bitmap s n) f = if InRange s n f then false else Bitmap.bit bitmap f := by
  rw [bit_unsetBits]
  by_cases hf : InRange s n f
  · rw [if_pos hf, decide_eq_true hf, Bool.not_true, Bool.false_and]
  · rw [if_neg hf, decide_eq_false hf, Bool.not_false, Bool.true_and]

theorem unsetBits_setBits {bitmap : Bitmap} {s n : Nat} (hclear : Clear bitmap s n) :
    unsetBits (setBits bitmap s n) s n = bitmap := by
  apply Bitmap.ext_bit
  intro j
  rw [bit_unsetBits_if]
  by_cases hj : InRange s n j
  · rw [if_pos hj, hclear j hj.1 hj.2]
  · rw [if_neg hj, bit_setBits_if, if_neg hj]

section
variable {s : Pmm} {size : Nat} {n : BitVec 64}

theorem findContigiousChunk_lt (bitmap : Bitmap) {bits n : Nat} (hn : 1 ≤ n)
    (hfound : findContigiousChunk bitmap bits n ≠ 0) : findContigiousChunk bitmap bits n < bits := by
  rw [findContigiousChunk] at hfound ⊢
  rcases findContigiousChunkOn_spec hn (readsFree bitmap) bits with hrun | ⟨-, htail | ⟨hzero, -⟩⟩
  · have hb := hrun.bound
    omega
  · exact htail.bound
  · exact absurd hzero hfound

/-- What `pmm_alloc` returns where its address does not wrap: 0 and the state as
    it was, or the address of a frame of the bitmap. -/
theorem pmmAlloc_cases (hsize : getBitmapSize s.entries = some size) (hbits : size * 8 < 2^52)
    (hn : 1 ≤ n.toNat) :
    pmmAlloc s n = some (s, 0) ∨
      ∃ bit, 1 ≤ bit ∧ bit < size * 8 ∧
        pmmAlloc s n = some ({ s with
          bitmap := setBits s.bitmap bit ((bit + n.toNat) % 2^64 - bit) }, 0x1000 * bit) := by
  simp only [pmmAlloc, hsize, Option.bind_eq_bind, Option.bind_some]
  by_cases hzero : findContigiousChunk s.bitmap (size * 8) n.toNat = 0
  · rw [if_pos hzero]
    exact .inl rfl
  · rw [if_neg hzero]
    have hlt := findContigiousChunk_lt s.bitmap hn hzero
    generalize findContigiousChunk s.bitmap (size * 8) n.toNat = bit at hzero hlt
    have haddr : pageSize * bit % 2^64 = 0x1000 * bit := by
      unfold pageSize
      omega
    rw [haddr]
    exact .inr ⟨bit, by omega, hlt, rfl⟩

end

/-- **`pmm_free` undoes `pmm_alloc`, and both touch nothing else.** For every
    bitmap of less than `2^52` bits and every `n`, 1 or more: an allocation that
    returns 0 leaves the bitmap as it was; one that returns `p`, with its `n`
    frames in the bitmap, sets their bits and no other, and `pmm_free(p, n)`
    then clears these bits and no other, so that where they were clear before,
    every byte is as it was. -/
theorem free_undoes_alloc (s : Pmm) (size : Nat) (n : BitVec 64)
    (hsize : getBitmapSize s.entries = some size) (hbits : size * 8 < 2^52) (hn : 1 ≤ n.toNat) :
    ∃ s' p, pmmAlloc s n = some (s', p) ∧
      (p = 0 → s'.bitmap = s.bitmap) ∧
      (p ≠ 0 → p / 4096 + n.toNat ≤ size * 8 →
        (∀ f, Bitmap.bit s'.bitmap f =
          if InRange (p / 4096) n.toNat f then true else Bitmap.bit s.bitmap f) ∧
        (∀ f, Bitmap.bit (pmmFree s' p n).bitmap f =
          if InRange (p / 4096) n.toNat f then false else Bitmap.bit s'.bitmap f) ∧
        ((∀ f, InRange (p / 4096) n.toNat f → Bitmap.bit s.bitmap f = false) →
          (pmmFree s' p n).bitmap = s.bitmap)) := by
  rcases pmmAlloc_cases hsize hbits hn with hnone | ⟨bit, hpos, hlt, hsome⟩
  · exact ⟨s, 0, hnone, fun _ => rfl, fun hp => absurd rfl hp⟩
  · refine ⟨_, _, hsome, ?_, ?_⟩
    · intro hp
      omega
    · intro _ hfit
      have hframe : 0x1000 * bit / 4096 = bit := by omega
      rw [hframe] at hfit ⊢
      have hcount : (bit + n.toNat) % 2^64 - bit = n.toNat := by omega
      rw [hcount]
      -- `pmm_free` starts at the frame the address names, and its end does not wrap
      have hfree : ∀ s' : Pmm, (pmmFree s' (0x1000 * bit) n).bitmap = unsetBits s'.bitmap bit n.toNat := by
        intro s'
        rw [pmmFree_eq (by omega) (.inr (by omega)), show 0x1000 * bit / 0x1000 = bit by omega]
      refine ⟨?_, ?_, ?_⟩
      · exact bit_setBits_if s.bitmap bit n.toNat
      · intro f
        rw [hfree]
        exact bit_unsetBits_if _ bit n.toNat f
      · intro hclear
        rw [hfree]
        exact unsetBits_setBits (fun f hf hf' => hclear f ⟨hf, hf'⟩)

/-- One usable entry of 16 frames, all free. -/
def sixteenFrames : Pmm := ⟨[⟨0, 0x10000, .usable⟩], 0, fun _ => 0⟩

theorem sixteenFrames_alloc : pmmAlloc sixteenFrames 3 = some
    ({ sixteenFrames with bitmap := setBits sixteenFrames.bitmap 1 3 }, 0x1000) := rfl

/-- Three frames are taken from the first byte of the bitmap and given back. -/
theorem free_undoes_alloc_three : ∃ s', pmmAlloc sixteenFrames 3 = some (s', 0x1000) ∧
    Bitmap.bit s'.bitmap 3 = true ∧ Bitmap.bit s'.bitmap 4 = false ∧
      (pmmFree s' 0x1000 3).bitmap = sixteenFrames.bitmap := by
  obtain ⟨s', p, halloc, -, htaken⟩ :=
    free_undoes_alloc sixteenFrames 0x1000 3 rfl (by decide) (by decide)
  rw [sixteenFrames_alloc, Option.some.injEq, Prod.mk.injEq] at halloc
  obtain ⟨rfl, rfl⟩ := halloc
  obtain ⟨hset, -, hundone⟩ := htaken (by decide) (by decide)
  exact ⟨_, sixteenFrames_alloc, hset 3, hset 4, hundone (fun f _ => Nat.zero_testBit _)⟩

end Qnixx
