import Qnixx.Lib.Tiling
import Qnixx.Tlsf

/- The blocks of the allocator and the memory. A `Blk` is a block with what is
   known of its memory: the two flags in its header, whether the word behind
   its data points back to it, whether it is in a free list, and its first
   bytes. `Phys` says that the blocks tile their pools and that the memory
   holds them. Everything it says about a block is in the block's own bytes,
   from its size word to the `prev_phys_block` of the next, so a store into
   one block leaves all others alone. -/
namespace Qnixx.Tlsf
open ByteMem Tiling

/-! The size word. -/

/-- A size with its two flags. -/
def headerWord (size : Nat) (free prev : Bool) : BitVec 64 := BitVec.ofNat 64 (size + free.toNat + 2 * prev.toNat)

theorem headerWord_bit {size : Nat} (h : size % 8 = 0) (free prev : Bool) {i : Nat} (hi : i < 64) :
    (headerWord size free prev).getLsbD i =
      if i = 0 then free else if i = 1 then prev else (BitVec.ofNat 64 size).getLsbD i := by
  have hq : size = 2^2 * (size / 4) := by omega
  have hr : free.toNat + 2 * prev.toNat < 2^2 := by
    have := Bool.toNat_lt free
    have := Bool.toNat_lt prev
    omega
  rw [headerWord, BitVec.getLsbD_ofNat, BitVec.getLsbD_ofNat, hq, Nat.add_assoc, Nat.testBit_two_pow_mul_add _ hr,
    Nat.testBit_two_pow_mul]
  rcases Nat.lt_or_ge i 2 with hlow | hhigh
  · obtain rfl | rfl : i = 0 ∨ i = 1 := by omega
    · cases free <;> cases prev <;> rfl
    · cases free <;> cases prev <;> rfl
  · rw [if_neg (by omega), if_neg (by omega), if_neg (by omega), decide_eq_true hhigh, Bool.true_and]

theorem ofNat_size_bit {size i : Nat} (h : size % 8 = 0) (hi : i < 2) : (BitVec.ofNat 64 size).getLsbD i = false := by
  have hbit := headerWord_bit h false false (i := i) (by omega)
  rw [headerWord, show size + false.toNat + 2 * false.toNat = size from rfl] at hbit
  rw [hbit]
  obtain rfl | rfl : i = 0 ∨ i = 1 := by omega
  · rfl
  · rfl

theorem freeBit_bit : ∀ i < 64, blockHeaderFreeBit.getLsbD i = decide (i = 0) := by decide

theorem prevFreeBit_bit : ∀ i < 64, blockHeaderPrevFreeBit.getLsbD i = decide (i = 1) := by decide

section
variable {size : Nat} (h : size % 8 = 0) (free prev : Bool)
include h

theorem headerWord_size :
    headerWord size free prev &&& ~~~(blockHeaderFreeBit ||| blockHeaderPrevFreeBit) = BitVec.ofNat 64 size := by
  apply BitVec.eq_of_getLsbD_eq
  intro i hi
  rw [BitVec.getLsbD_and, BitVec.getLsbD_not, BitVec.getLsbD_or, freeBit_bit i hi, prevFreeBit_bit i hi,
    headerWord_bit h _ _ hi]
  rcases i with _ | _ | i
  · rw [ofNat_size_bit h (by omega)]
    simp
  · rw [ofNat_size_bit h (by omega)]
    simp
  · simp [hi]

theorem headerWord_free : (headerWord size free prev &&& blockHeaderFreeBit != 0) = free := by
  have heq : headerWord size free prev &&& blockHeaderFreeBit = if free then blockHeaderFreeBit else 0 := by
    apply BitVec.eq_of_getLsbD_eq
    intro i hi
    rw [BitVec.getLsbD_and, headerWord_bit h _ _ hi, freeBit_bit i hi]
    cases free
    · by_cases h0 : i = 0
      · simp [h0]
      · simp [h0]
    · by_cases h0 : i = 0
      · simp [h0, freeBit_bit 0 (by omega)]
      · simp [h0, freeBit_bit i hi]
  rw [heq]
  cases free <;> decide

theorem headerWord_prev : (headerWord size free prev &&& blockHeaderPrevFreeBit != 0) = prev := by
  have heq : headerWord size free prev &&& blockHeaderPrevFreeBit = if prev then blockHeaderPrevFreeBit else 0 := by
    apply BitVec.eq_of_getLsbD_eq
    intro i hi
    rw [BitVec.getLsbD_and, headerWord_bit h _ _ hi, prevFreeBit_bit i hi]
    cases prev
    · by_cases h1 : i = 1
      · simp [h1]
      · simp [h1]
    · by_cases h1 : i = 1
      · simp [h1, prevFreeBit_bit 1 (by omega)]
      · simp [h1, prevFreeBit_bit i hi]
  rw [heq]
  cases prev <;> decide

theorem headerWord_setFree : headerWord size free prev ||| blockHeaderFreeBit = headerWord size true prev := by
  apply BitVec.eq_of_getLsbD_eq
  intro i hi
  rw [BitVec.getLsbD_or, headerWord_bit h _ _ hi, headerWord_bit h _ _ hi, freeBit_bit i hi]
  by_cases h0 : i = 0
  · simp [h0]
  · simp [h0]

theorem headerWord_setUsed : headerWord size free prev &&& ~~~blockHeaderFreeBit = headerWord size false prev := by
  apply BitVec.eq_of_getLsbD_eq
  intro i hi
  rw [BitVec.getLsbD_and, BitVec.getLsbD_not, headerWord_bit h _ _ hi, headerWord_bit h _ _ hi, freeBit_bit i hi]
  by_cases h0 : i = 0
  · simp [h0]
  · simp [h0, hi]

theorem headerWord_setPrevFree : headerWord size free prev ||| blockHeaderPrevFreeBit = headerWord size free true := by
  apply BitVec.eq_of_getLsbD_eq
  intro i hi
  rw [BitVec.getLsbD_or, headerWord_bit h _ _ hi, headerWord_bit h _ _ hi, prevFreeBit_bit i hi]
  by_cases h1 : i = 1
  · simp [h1]
  · simp [h1]

theorem headerWord_setPrevUsed :
    headerWord size free prev &&& ~~~blockHeaderPrevFreeBit = headerWord size free false := by
  apply BitVec.eq_of_getLsbD_eq
  intro i hi
  rw [BitVec.getLsbD_and, BitVec.getLsbD_not, headerWord_bit h _ _ hi, headerWord_bit h _ _ hi, prevFreeBit_bit i hi]
  by_cases h1 : i = 1
  · simp [h1]
  · simp [h1, hi]

/-- A new size, with the flags that some word has. -/
theorem size_or_flags (w : BitVec 64) :
    BitVec.ofNat 64 size ||| (w &&& (blockHeaderFreeBit ||| blockHeaderPrevFreeBit)) =
      headerWord size (w.getLsbD 0) (w.getLsbD 1) := by
  apply BitVec.eq_of_getLsbD_eq
  intro i hi
  rw [BitVec.getLsbD_or, BitVec.getLsbD_and, BitVec.getLsbD_or, freeBit_bit i hi, prevFreeBit_bit i hi,
    headerWord_bit h _ _ hi]
  rcases i with _ | _ | i
  · rw [ofNat_size_bit h (by omega)]
    simp
  · rw [ofNat_size_bit h (by omega)]
    simp
  · simp

end

theorem headerWord_flags {size : Nat} (h : size % 8 = 0) (free prev : Bool) :
    (headerWord size free prev).getLsbD 0 = free ∧ (headerWord size free prev).getLsbD 1 = prev := by
  rw [headerWord_bit h _ _ (by omega), headerWord_bit h _ _ (by omega)]
  exact ⟨rfl, rfl⟩

theorem headerWord_add (size n : Nat) (free prev : Bool) :
    headerWord size free prev + BitVec.ofNat 64 n = headerWord (size + n) free prev := by
  rw [headerWord, headerWord, ← BitVec.ofNat_add]
  congr 1
  omega

/-! Blocks. -/

structure Blk where
  addr : Nat
  size : Nat
  free : Bool
  prevFree : Bool
  /-- The `prev_phys_block` of the next block is this one. -/
  linked : Bool
  /-- It is in the free list of its class. -/
  listed : Bool
  /-- The first bytes of its data. -/
  data : List Byte

namespace Blk

def ptr (b : Blk) : BitVec 64 := BitVec.ofNat 64 b.addr

/-- The address of the next block. -/
def stop (b : Blk) : Nat := b.addr + 8 + b.size

/-- The bytes of the block; only the block at the end of a pool has no data. -/
def piece (b : Blk) : Piece := ⟨b.addr + 8, b.addr + 16 + b.size, b.size == 0⟩

structure Fits (b : Blk) : Prop where
  pos : 0 < b.addr
  aligned : b.addr % 8 = 0
  words : b.size % 8 = 0
  least : b.size = 0 ∨ 24 ≤ b.size
  high : b.addr + 16 + b.size ≤ 2^64
  last : b.size = 0 → b.free = false ∧ b.linked = false ∧ b.listed = false
  known : b.data.length ≤ b.size
  ofLinked : b.linked = true → b.data.length + 8 ≤ b.size
  ofListed : b.listed = true → b.data = []

/-- The memory holds the block. -/
structure In (m : Mem) (b : Blk) : Prop where
  size : sizeField m b.ptr = headerWord b.size b.free b.prevFree
  back : b.linked = true → prevPhysBlock m (BitVec.ofNat 64 b.stop) = b.ptr
  data : Holds m (BitVec.ofNat 64 (b.addr + 16)) b.data

end Blk

theorem sizeField_ofNat (m : Mem) (a : Nat) : sizeField m (BitVec.ofNat 64 a) = load64 m (BitVec.ofNat 64 (a + 8)) := by
  rw [BitVec.ofNat_add]
  rfl

theorem setSizeField_ofNat (m : Mem) (a : Nat) (v : BitVec 64) :
    setSizeField m (BitVec.ofNat 64 a) v = store64 m (BitVec.ofNat 64 (a + 8)) v := by
  rw [BitVec.ofNat_add]
  rfl

section
variable {m m' : Mem} {b : Blk}

theorem Blk.Fits.least_of_ne (h : b.Fits) (hsize : b.size ≠ 0) : 24 ≤ b.size := by
  rcases h.least with hzero | hle
  · exact absurd hzero hsize
  · exact hle

theorem Blk.In.agree (h : b.In m) (hfits : b.Fits) (hagree : Agree m m' (b.addr + 8) (b.addr + 16 + b.size)) :
    b.In m' := by
  have hhigh := hfits.high
  have hknown := hfits.known
  refine ⟨?_, ?_, ?_⟩
  · rw [← h.size, Blk.ptr, sizeField_ofNat, sizeField_ofNat]
    exact load64_agree (by omega) (hagree.mono (Nat.le_refl _) (by omega))
  · intro hlinked
    rw [← h.back hlinked]
    exact load64_agree (by rw [Blk.stop]; omega) (hagree.mono (by rw [Blk.stop]; omega) (by rw [Blk.stop]; omega))
  · exact h.data.agree (by omega) (hagree.mono (by omega) (by omega))

/-! What the functions on a header return. -/

theorem Blk.In.blockSize (h : b.In m) (hfits : b.Fits) : Tlsf.blockSize m b.ptr = BitVec.ofNat 64 b.size := by
  rw [Tlsf.blockSize, h.size, headerWord_size hfits.words]

theorem Blk.In.blockIsFree (h : b.In m) (hfits : b.Fits) : Tlsf.blockIsFree m b.ptr = b.free := by
  rw [Tlsf.blockIsFree, h.size, headerWord_free hfits.words]

theorem Blk.In.blockIsPrevFree (h : b.In m) (hfits : b.Fits) : Tlsf.blockIsPrevFree m b.ptr = b.prevFree := by
  rw [Tlsf.blockIsPrevFree, h.size, headerWord_prev hfits.words]

theorem Blk.In.blockIsLast (h : b.In m) (hfits : b.Fits) : Tlsf.blockIsLast m b.ptr = (b.size == 0) := by
  have hhigh := hfits.high
  have hpos := hfits.pos
  rw [Tlsf.blockIsLast, h.blockSize hfits]
  by_cases hzero : b.size = 0
  · rw [hzero]
    rfl
  · have hne : BitVec.ofNat 64 b.size ≠ 0 := by
      intro heq
      have := congrArg BitVec.toNat heq
      rw [BitVec.toNat_ofNat, Nat.mod_eq_of_lt (by omega)] at this
      exact hzero this
    rw [beq_eq_false_iff_ne.mpr hne, beq_eq_false_iff_ne.mpr hzero]

theorem Blk.In.blockNext (h : b.In m) (hfits : b.Fits) (hsize : b.size ≠ 0) :
    Tlsf.blockNext m b.ptr = some (BitVec.ofNat 64 b.stop) := by
  have hnext : offsetToBlock (blockToPtr b.ptr) (BitVec.ofNat 64 b.size - blockHeaderOverhead) =
      BitVec.ofNat 64 b.stop := by
    rw [offsetToBlock, blockToPtr, Blk.ptr, Blk.stop, blockStartOffset, blockHeaderOverhead]
    bv_omega
  rw [Tlsf.blockNext, h.blockSize hfits, h.blockIsLast hfits, hnext, beq_eq_false_iff_ne.mpr hsize]
  rfl

end

/-! All blocks of all pools. -/

/-- The blocks tile their pools, the memory holds them, the null block at `z` is
    elsewhere, and the memory outside of them is `m₀`. -/
structure Phys (m₀ : Mem) (z : Nat) (m : Mem) (bs : List Blk) : Prop where
  tiled : Tiled (2^32) (bs.map Blk.piece)
  fits : ∀ b ∈ bs, b.Fits
  holds : ∀ b ∈ bs, b.In m
  nullPos : 0 < z
  nullHigh : z + 32 ≤ 2^64
  nullApart : ∀ b ∈ bs, z + 32 ≤ b.addr + 8 ∨ b.addr + 16 + b.size ≤ z + 16
  outside : ∀ x : BitVec 64, (∀ b ∈ bs, ¬ b.piece.Has x.toNat) → x.toNat < z + 16 ∨ z + 32 ≤ x.toNat → m x = m₀ x

section
variable {m₀ m m' : Mem} {z : Nat} {pre post : List Blk} {b c b' : Blk}

theorem Phys.fits_at (h : Phys m₀ z m (pre ++ b :: post)) : b.Fits := h.fits b (by simp)

theorem Phys.holds_at (h : Phys m₀ z m (pre ++ b :: post)) : b.In m := h.holds b (by simp)

/-- Two different places of the list are apart. -/
theorem Phys.apart (h : Phys m₀ z m (pre ++ b :: post)) (hc : c ∈ pre ++ post) : b.piece.Apart c.piece := by
  have htiled := h.tiled
  rw [List.map_append, List.map_cons] at htiled
  apply htiled.apart_of_mem
  rw [← List.map_append]
  exact List.mem_map_of_mem hc

/-- Some blocks are replaced by others in the same place, and the memory changes
    nowhere else. -/
theorem Phys.replace (old new : List Blk) (h : Phys m₀ z m (pre ++ (old ++ post)))
    (htiled : Tiled (2^32) ((pre ++ (new ++ post)).map Blk.piece)) (hfits : ∀ b ∈ new, b.Fits) (hin : ∀ b ∈ new, b.In m')
    (hnull : ∀ b ∈ new, z + 32 ≤ b.addr + 8 ∨ b.addr + 16 + b.size ≤ z + 16)
    (hcover : ∀ x, (∀ b ∈ new, ¬ b.piece.Has x) → ∀ b ∈ old, ¬ b.piece.Has x)
    (hm : ∀ x : BitVec 64, (∀ b ∈ old, ¬ b.piece.Has x.toNat) → m' x = m x) :
    Phys m₀ z m' (pre ++ (new ++ post)) := by
  -- the other blocks do not see the change
  have hothers : ∀ c ∈ pre ++ post, c ∈ pre ++ (old ++ post) := by
    intro c hc
    simp only [List.mem_append] at hc ⊢
    tauto
  have hkept : ∀ c ∈ pre ++ post, c.In m' := by
    intro c hc
    apply (h.holds c (hothers c hc)).agree (h.fits c (hothers c hc))
    intro x hlo hhi
    apply hm
    intro b hb hhas
    obtain ⟨before, after, rfl⟩ := List.append_of_mem hb
    have hassoc : pre ++ ((before ++ b :: after) ++ post) = (pre ++ before) ++ b :: (after ++ post) := by simp
    rw [hassoc] at h
    have hapart : b.piece.Apart c.piece := by
      apply h.apart
      simp only [List.mem_append] at hc ⊢
      tauto
    simp only [Piece.Apart, Piece.Has, Blk.piece] at hapart hhas
    omega
  have hcases : ∀ c ∈ pre ++ (new ++ post), c ∈ new ∨ c ∈ pre ++ post := by
    intro c hc
    simp only [List.mem_append] at hc ⊢
    tauto
  refine ⟨htiled, ?_, ?_, h.nullPos, h.nullHigh, ?_, ?_⟩
  · intro c hc
    rcases hcases c hc with hc | hc
    · exact hfits c hc
    · exact h.fits c (hothers c hc)
  · intro c hc
    rcases hcases c hc with hc | hc
    · exact hin c hc
    · exact hkept c hc
  · intro c hc
    rcases hcases c hc with hc | hc
    · exact hnull c hc
    · exact h.nullApart c (hothers c hc)
  · intro x hx hz
    have hold : ∀ b ∈ old, ¬ b.piece.Has x.toNat :=
      hcover x.toNat (fun b hb => hx b (by simp [hb]))
    rw [hm x hold]
    apply h.outside x _ hz
    intro c hc
    simp only [List.mem_append] at hc
    rcases hc with hc | hc | hc
    · exact hx c (by simp [hc])
    · exact hold c hc
    · exact hx c (by simp [hc])

/-- One block changes, and not its place. -/
theorem Phys.edit (h : Phys m₀ z m (pre ++ b :: post)) (haddr : b'.addr = b.addr) (hsize : b'.size = b.size)
    (hfits : b'.Fits) (hin : b'.In m') (hm : ∀ x : BitVec 64, ¬ b.piece.Has x.toNat → m' x = m x) :
    Phys m₀ z m' (pre ++ b' :: post) := by
  have hpiece : b'.piece = b.piece := by rw [Blk.piece, Blk.piece, haddr, hsize]
  refine Phys.replace [b] [b'] h ?_ ?_ ?_ ?_ ?_ ?_
  · have htiled := h.tiled
    rw [List.map_append, List.map_cons] at htiled
    rw [List.singleton_append, List.map_append, List.map_cons, hpiece]
    exact htiled
  · exact List.forall_mem_singleton.mpr hfits
  · exact List.forall_mem_singleton.mpr hin
  · rw [List.forall_mem_singleton, haddr, hsize]
    exact h.nullApart b (by simp)
  · intro x hx
    rw [List.forall_mem_singleton] at hx ⊢
    rwa [← hpiece]
  · intro x hx
    exact hm x (hx b List.mem_cons_self)

/-- A word is stored inside of a block. -/
theorem store_in_piece (m : Mem) {a : Nat} (v : BitVec 64) (hfits : b.Fits) (hlow : b.addr + 8 ≤ a)
    (hhigh : a ≤ b.stop) (x : BitVec 64) (hx : ¬ b.piece.Has x.toNat) : store64 m (BitVec.ofNat 64 a) v x = m x := by
  have := hfits.high
  rw [Blk.stop] at hhigh
  simp only [Piece.Has, Blk.piece] at hx
  exact agree_store64 m v (by omega) (by omega) x (Nat.le_refl _) (Nat.lt_succ_self _)

/-- Other flags in the header. -/
theorem Phys.setFlags (h : Phys m₀ z m (pre ++ b :: post)) (free prev : Bool) (hlast : b.size = 0 → free = false) :
    Phys m₀ z (setSizeField m b.ptr (headerWord b.size free prev))
      (pre ++ { b with free := free, prevFree := prev } :: post) := by
  have hfits := h.fits_at
  have hin := h.holds_at
  have hhigh := hfits.high
  have hknown := hfits.known
  rw [Blk.ptr, setSizeField_ofNat]
  refine h.edit rfl rfl ?_ ?_ (store_in_piece m _ hfits (Nat.le_refl _) (by rw [Blk.stop]; omega))
  · exact { hfits with last := fun hzero => ⟨hlast hzero, (hfits.last hzero).2⟩ }
  · refine ⟨?_, ?_, ?_⟩
    · rw [Blk.ptr, sizeField_ofNat, load64_store64]
    · intro hlinked
      have hsize : b.size ≠ 0 := by
        intro hzero
        have := (hfits.last hzero).2.1
        rw [show b.linked = true from hlinked] at this
        cases this
      have hleast := hfits.least_of_ne hsize
      refine Eq.trans ?_ (hin.back hlinked)
      exact load64_agree (by simp only [Blk.stop]; omega)
        (agree_store64 m _ (by omega) (by simp only [Blk.stop]; omega))
    · exact hin.data.agree (by omega) (agree_store64 m _ (by omega) (by omega))

/-- The next block points back. -/
theorem Phys.link (h : Phys m₀ z m (pre ++ b :: post)) (hsize : b.size ≠ 0) :
    Phys m₀ z (setPrevPhysBlock m (BitVec.ofNat 64 b.stop) b.ptr)
      (pre ++ { b with linked := true, data := b.data.take (b.size - 8) } :: post) := by
  have hfits := h.fits_at
  have hin := h.holds_at
  have hhigh := hfits.high
  have hleast := hfits.least_of_ne hsize
  have hlen := List.length_take_le (b.size - 8) b.data
  refine h.edit rfl rfl ?_ ?_ (store_in_piece m _ hfits (by rw [Blk.stop]; omega) (Nat.le_refl _))
  · exact { hfits with
      last := fun hzero => absurd hzero hsize
      known := by
        show (b.data.take (b.size - 8)).length ≤ b.size
        omega
      ofLinked := by
        intro _
        show (b.data.take (b.size - 8)).length + 8 ≤ b.size
        omega
      ofListed := by
        intro hlisted
        show b.data.take (b.size - 8) = []
        rw [hfits.ofListed hlisted, List.take_nil] }
  · refine ⟨?_, ?_, ?_⟩
    · refine Eq.trans ?_ hin.size
      show sizeField _ (BitVec.ofNat 64 b.addr) = sizeField m (BitVec.ofNat 64 b.addr)
      rw [sizeField_ofNat, sizeField_ofNat]
      exact load64_agree (by omega) (agree_store64 m _ (by rw [Blk.stop]; omega) (by rw [Blk.stop]; omega))
    · intro _
      exact load64_store64 m _ _
    · exact (hin.data.take _).agree (by omega) (agree_store64 m _ (by rw [Blk.stop]; omega) (by rw [Blk.stop]; omega))

/-- Less may be known of a block. -/
theorem Phys.forget (h : Phys m₀ z m (pre ++ b :: post)) (linked : Bool) (hlinked : linked = true → b.linked = true)
    (n : Nat) : Phys m₀ z m (pre ++ { b with linked := linked, data := b.data.take n } :: post) := by
  have hfits := h.fits_at
  have hin := h.holds_at
  have hknown := hfits.known
  have hlen : (b.data.take n).length ≤ b.data.length := by
    rw [List.length_take]
    exact Nat.min_le_right _ _
  refine h.edit rfl rfl ?_ ⟨hin.size, fun hl => hin.back (hlinked hl), hin.data.take n⟩ (fun _ _ => rfl)
  exact { hfits with
    last := by
      intro hzero
      obtain ⟨hfree, hnot, hlisted⟩ := hfits.last hzero
      refine ⟨hfree, ?_, hlisted⟩
      rw [← Bool.not_eq_true]
      intro hl
      rw [hlinked hl] at hnot
      cases hnot
    known := Nat.le_trans hlen hknown
    ofLinked := by
      intro hl
      have := hfits.ofLinked (hlinked hl)
      show (b.data.take n).length + 8 ≤ b.size
      omega
    ofListed := by
      intro hlisted
      show b.data.take n = []
      rw [hfits.ofListed hlisted, List.take_nil] }

/-- A block that is in no list and not linked holds what the memory holds. -/
theorem Phys.observe (h : Phys m₀ z m (pre ++ b :: post)) (hlinked : b.linked = false) (hlisted : b.listed = false) :
    Phys m₀ z m (pre ++ { b with data := loadBytes m (BitVec.ofNat 64 (b.addr + 16)) b.size } :: post) := by
  have hfits := h.fits_at
  have hin := h.holds_at
  refine h.edit rfl rfl ?_ ?_ (fun _ _ => rfl)
  · exact { hfits with
      known := by
        show (loadBytes m (BitVec.ofNat 64 (b.addr + 16)) b.size).length ≤ b.size
        rw [loadBytes, List.length_map, List.length_range]
      ofLinked := fun h => absurd (hlinked.symm.trans h) (by decide)
      ofListed := fun h => absurd (hlisted.symm.trans h) (by decide) }
  · exact ⟨hin.size, hin.back, holds_loadBytes _ _ _⟩

theorem piece_last (hsize : b.size ≠ 0) : b.piece.last = false := beq_eq_false_iff_ne.mpr hsize

theorem Phys.next_addr (h : Phys m₀ z m (pre ++ b :: c :: post)) (hsize : b.size ≠ 0) : c.addr = b.stop := by
  have htiled := h.tiled
  rw [List.map_append, List.map_cons, List.map_cons] at htiled
  have hstart : c.addr + 8 = b.addr + 16 + b.size := htiled.start_eq (piece_last hsize)
  rw [Blk.stop]
  omega

theorem Phys.exists_next (h : Phys m₀ z m (pre ++ b :: post)) (hsize : b.size ≠ 0) : ∃ n rest, post = n :: rest := by
  have htiled := h.tiled
  rw [List.map_append, List.map_cons] at htiled
  obtain ⟨p, ps, hmap, -⟩ := htiled.next (piece_last hsize)
  obtain ⟨n, rest, hpost, -⟩ := List.map_eq_cons_iff.mp hmap
  exact ⟨n, rest, hpost⟩

theorem Phys.size_lt (h : Phys m₀ z m (pre ++ b :: post)) : b.size < 2^32 := by
  by_cases hsize : b.size = 0
  · omega
  · have htiled := h.tiled
    rw [List.map_append, List.map_cons] at htiled
    have hle := htiled.length_le (piece_last hsize)
    simp only [Blk.piece] at hle
    omega

/-- A block takes the next one in. -/
theorem Phys.join (h : Phys m₀ z m (pre ++ b :: c :: post)) (hb : b.size ≠ 0) (hc : c.size ≠ 0)
    (hlisted : b.listed = false) :
    Phys m₀ z (setSizeField m b.ptr (headerWord (b.size + (c.size + 8)) b.free b.prevFree))
      (pre ++ { b with size := b.size + (c.size + 8), linked := false } :: post) := by
  have hfits := h.fits_at
  have hin := h.holds_at
  have hcfits : c.Fits := h.fits c (by simp)
  have hnext : c.addr = b.addr + 8 + b.size := h.next_addr hb
  have hhigh := hcfits.high
  have hknown := hfits.known
  have hbwords := hfits.words
  have hcwords := hcfits.words
  have hbleast := hfits.least_of_ne hb
  rw [Blk.ptr, setSizeField_ofNat]
  refine Phys.replace [b, c] [{ b with size := b.size + (c.size + 8), linked := false }] h ?_ ?_ ?_ ?_ ?_ ?_
  · have htiled := h.tiled
    rw [List.map_append, List.map_cons, List.map_cons] at htiled
    have hjoined := htiled.join (piece_last hb) (piece_last hc)
    rw [List.singleton_append, List.map_append, List.map_cons]
    have hpiece : Blk.piece { b with size := b.size + (c.size + 8), linked := false } =
        ⟨b.piece.start, c.piece.stop, false⟩ := by
      simp only [Blk.piece, Piece.mk.injEq, true_and, beq_eq_false_iff_ne]
      omega
    rw [hpiece]
    exact hjoined
  · refine List.forall_mem_singleton.mpr ⟨hfits.pos, hfits.aligned, ?_, .inr ?_, ?_, ?_, ?_, ?_, ?_⟩
    · show (b.size + (c.size + 8)) % 8 = 0
      omega
    · show 24 ≤ b.size + (c.size + 8)
      omega
    · show b.addr + 16 + (b.size + (c.size + 8)) ≤ 2^64
      omega
    · intro hzero
      exact absurd (show b.size + (c.size + 8) = 0 from hzero) (by omega)
    · show b.data.length ≤ b.size + (c.size + 8)
      omega
    · intro h
      cases h
    · intro h
      exact absurd (hlisted.symm.trans h) (by decide)
  · refine List.forall_mem_singleton.mpr ⟨?_, fun h => absurd h Bool.false_ne_true, ?_⟩
    · show sizeField _ (BitVec.ofNat 64 b.addr) = _
      rw [sizeField_ofNat, load64_store64]
    · exact hin.data.agree (by omega) (agree_store64 m _ (by omega) (by omega))
  · refine List.forall_mem_singleton.mpr ?_
    have hbnull := h.nullApart b (by simp)
    have hcnull := h.nullApart c (by simp)
    show z + 32 ≤ b.addr + 8 ∨ b.addr + 16 + (b.size + (c.size + 8)) ≤ z + 16
    omega
  · intro x hx d hd
    have hx := hx _ List.mem_cons_self
    simp only [Piece.Has, Blk.piece] at hx
    simp only [List.mem_cons, List.not_mem_nil, or_false] at hd
    rcases hd with rfl | rfl
    · simp only [Piece.Has, Blk.piece]
      omega
    · simp only [Piece.Has, Blk.piece]
      omega
  · intro x hx
    exact store_in_piece m _ hfits (Nat.le_refl _) (by rw [Blk.stop]; omega) x (hx b List.mem_cons_self)

/-- What is left of a block that is cut to a size, with some flags. -/
def Blk.rest (b : Blk) (size : Nat) (free prev : Bool) : Blk :=
  { addr := b.addr + 8 + size, size := b.size - (size + 8), free := free, prevFree := prev, linked := false,
    listed := false, data := [] }

/-- A block is cut in two: the header of the second part is written first. Without
    data, a used block ends a pool there. -/
theorem Phys.cut (h : Phys m₀ z m (pre ++ b :: post)) {size : Nat} (hwords : size % 8 = 0)
    (hleast : size = 0 ∧ b.free = false ∨ 24 ≤ size)
    (hroom : size + 32 ≤ b.size) (hlisted : b.listed = false) (free prev : Bool) :
    Phys m₀ z (setSizeField (setSizeField m (b.rest size free prev).ptr
        (headerWord (b.size - (size + 8)) free prev)) b.ptr (headerWord size b.free b.prevFree))
      (pre ++ { b with size := size, linked := false, data := b.data.take size } :: b.rest size free prev :: post) := by
  have hfits := h.fits_at
  have hin := h.holds_at
  have hhigh := hfits.high
  have hknown := hfits.known
  have hbwords := hfits.words
  have hpos := hfits.pos
  have haligned := hfits.aligned
  have hsize : b.size ≠ 0 := by omega
  rw [show (b.rest size free prev).ptr = BitVec.ofNat 64 (b.addr + 8 + size) from rfl, Blk.ptr, setSizeField_ofNat,
    setSizeField_ofNat]
  refine Phys.replace [b] [{ b with size := size, linked := false, data := b.data.take size },
    b.rest size free prev] h ?_ ?_ ?_ ?_ ?_ ?_
  · have htiled := h.tiled
    rw [List.map_append, List.map_cons] at htiled
    have hcut := htiled.cut (piece_last hsize) (k := b.addr + 16 + size) (by simp only [Blk.piece]; omega)
      (by simp only [Blk.piece]; omega) (size == 0)
    have hfirst : Blk.piece { b with size := size, linked := false, data := b.data.take size } =
        ⟨b.piece.start, b.addr + 16 + size, size == 0⟩ := rfl
    have hsecond : Blk.piece (b.rest size free prev) = ⟨b.addr + 16 + size, b.piece.stop, false⟩ := by
      simp only [Blk.piece, Blk.rest, Piece.mk.injEq, beq_eq_false_iff_ne]
      omega
    rw [List.cons_append, List.singleton_append, List.map_append, List.map_cons, List.map_cons, hfirst, hsecond]
    exact hcut
  · intro d hd
    simp only [List.mem_cons, List.not_mem_nil, or_false] at hd
    rcases hd with rfl | rfl
    · refine ⟨hpos, haligned, hwords, hleast.imp_left And.left, ?_, ?_, ?_, ?_, ?_⟩
      · show b.addr + 16 + size ≤ 2^64
        omega
      · intro hzero
        have hzero : size = 0 := hzero
        rcases hleast with hleast | hleast
        · exact ⟨hleast.2, rfl, hlisted⟩
        · omega
      · show (b.data.take size).length ≤ size
        exact List.length_take_le _ _
      · intro h
        cases h
      · intro h
        exact absurd (hlisted.symm.trans h) (by decide)
    · refine ⟨?_, ?_, ?_, .inr ?_, ?_, ?_, Nat.zero_le _, fun h => absurd h Bool.false_ne_true, fun _ => rfl⟩
      · show 0 < b.addr + 8 + size
        omega
      · show (b.addr + 8 + size) % 8 = 0
        omega
      · show (b.size - (size + 8)) % 8 = 0
        omega
      · show 24 ≤ b.size - (size + 8)
        omega
      · show b.addr + 8 + size + 16 + (b.size - (size + 8)) ≤ 2^64
        omega
      · intro hzero
        exact absurd (show b.size - (size + 8) = 0 from hzero) (by omega)
  · intro d hd
    simp only [List.mem_cons, List.not_mem_nil, or_false] at hd
    rcases hd with rfl | rfl
    · refine ⟨?_, fun h => absurd h Bool.false_ne_true, ?_⟩
      · show sizeField _ (BitVec.ofNat 64 b.addr) = _
        rw [sizeField_ofNat, load64_store64]
      · have hlen := List.length_take_le size b.data
        have hagree : ∀ (m : Mem) (v : BitVec 64) {a : Nat}, a + 8 ≤ b.addr + 16 ∨ b.addr + 16 + size ≤ a → a + 8 ≤ 2^64 →
            Agree m (store64 m (BitVec.ofNat 64 a) v) (b.addr + 16) (b.addr + 16 + (b.data.take size).length) :=
          fun m v a h1 h2 => agree_store64 m v h2 (by omega)
        exact (hin.data.take size).agree (by omega)
          ((hagree m _ (by omega) (by omega)).trans (hagree _ _ (by omega) (by omega)))
    · refine ⟨?_, fun h => absurd h Bool.false_ne_true, ?_⟩
      · show sizeField _ (BitVec.ofNat 64 (b.addr + 8 + size)) = headerWord (b.size - (size + 8)) free prev
        rw [sizeField_ofNat, load64_agree (m := store64 m _ _) (by omega) (agree_store64 _ _ (by omega) (by omega)),
          load64_store64]
      · intro i x hx
        cases hx
  · intro d hd
    have hnull := h.nullApart b (by simp)
    simp only [List.mem_cons, List.not_mem_nil, or_false] at hd
    rcases hd with rfl | rfl
    · show z + 32 ≤ b.addr + 8 ∨ b.addr + 16 + size ≤ z + 16
      omega
    · show z + 32 ≤ b.addr + 8 + size + 8 ∨ b.addr + 8 + size + 16 + (b.size - (size + 8)) ≤ z + 16
      omega
  · intro x hx d hd
    have hx1 := hx _ List.mem_cons_self
    have hx2 := hx _ (List.mem_cons_of_mem _ List.mem_cons_self)
    simp only [List.mem_cons, List.not_mem_nil, or_false] at hd
    simp only [Piece.Has, Blk.piece, Blk.rest] at hx1 hx2
    rw [hd]
    simp only [Piece.Has, Blk.piece]
    omega
  · intro x hx
    have hx := hx b List.mem_cons_self
    rw [store_in_piece _ _ hfits (Nat.le_refl _) (by rw [Blk.stop]; omega) x hx,
      store_in_piece m _ hfits (by omega) (by rw [Blk.stop]; omega) x hx]

end

end Qnixx.Tlsf
