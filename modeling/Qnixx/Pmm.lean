import Mathlib.Algebra.Group.Nat.Defs
import Mathlib.Order.Bounds.Defs
import Mathlib.Tactic.Common
import Qnixx.Bitmap

/- The physical memory manager (`mm/pmm.c`). One bit per page frame, set when
   the frame is in use. `pmm_init` carves the bitmap out of the first usable
   entry that can hold it, and clears the bits of the usable entries; an
   allocation scans for frames that read as free. `none` is a NULL dereference:
   a memory map with no usable entry, or with none that can hold the bitmap.

   Sizes and addresses are `size_t`; sums that can exceed 64 bits are taken
   modulo `2^64`. -/
namespace Qnixx

/-- `LIMINE_MEMMAP_*`. -/
inductive MemmapType where
  | usable | reserved | acpiReclaimable | acpiNvs | badMemory | bootloaderReclaimable
  | kernelAndModules | framebuffer
  deriving DecidableEq

structure MemmapEntry where
  base : Nat
  length : Nat
  type : MemmapType
  deriving DecidableEq

def pageSize : Nat := 0x1000

/-- `ALIGN_UP` for a power of two. -/
def alignUp (address align : Nat) : Nat := (address + (align - 1)) / align * align

/-- One turn of the loop of `find_highest_mem_chunk`. -/
def higherChunk (chunk : Option MemmapEntry) (entry : MemmapEntry) : Option MemmapEntry :=
  if entry.type ≠ .usable then chunk
  else match chunk with
    | none => some entry
    | some c => if entry.base > c.base then some entry else some c

def findHighestMemChunk (entries : List MemmapEntry) : Option MemmapEntry :=
  entries.foldl higherChunk none

def getBitmapSize (entries : List MemmapEntry) : Option Nat :=
  (findHighestMemChunk entries).map (fun highest =>
    alignUp ((highest.base + highest.length) % 2^64 / 0x1000 / 8) 0x1000)

structure Pmm where
  entries : List MemmapEntry
  /-- The physical address of the bitmap. -/
  storage : Nat
  bitmap : Bitmap

/-- The first loop of `init_bitmap`: the bitmap's place and the memory map
    without it. -/
def takeBitmap (bitmapSize : Nat) : List MemmapEntry → Option (Nat × List MemmapEntry)
  | [] => none
  | entry :: entries =>
    if entry.type = .usable ∧ entry.length ≥ bitmapSize then
      some (entry.base,
        { entry with length := entry.length - bitmapSize, base := entry.base + bitmapSize } :: entries)
    else (takeBitmap bitmapSize entries).map (fun r => (r.1, entry :: r.2))

/-- `count` pages from the address on, which may wrap, marked free. -/
def unsetPages (bitmap : Bitmap) (address : Nat) : Nat → Bitmap
  | 0 => bitmap
  | count + 1 =>
    unsetPages (bitmapUnsetBit bitmap (address / 0x1000)) ((address + 0x1000) % 2^64) count

/-- How often a loop over `length` bytes in steps of a page runs. -/
def pageCount (length : Nat) : Nat := (length + 0xFFF) / 0x1000

/-- The second loop of `init_bitmap`. -/
def clearUsable (bitmapSize : Nat) (bitmap : Bitmap) (entries : List MemmapEntry) : Bitmap :=
  entries.foldl (fun bitmap entry =>
    if entry.type = .usable ∧ entry.length ≥ bitmapSize then
      unsetPages bitmap entry.base (pageCount entry.length)
    else bitmap) bitmap

/-- `pmm_init`; `mem` is what the memory from the bitmap on holds before. -/
def pmmInit (entries : List MemmapEntry) (mem : Nat → BitVec 8) : Option Pmm := do
  let bitmapSize ← getBitmapSize entries
  let (storage, entries) ← takeBitmap bitmapSize entries
  let bitmap : Bitmap := fun i => if i < bitmapSize then 0xFF else mem i
  some { entries := entries, storage := storage, bitmap := clearUsable bitmapSize bitmap entries }

/-- The loop of `find_contigious_chunk` over the next bits; `pat` says which of
    them the test reads as free. -/
def findLoop (pat : Nat → Bool) (frameCount : Nat) : Nat → Nat → Nat → Nat → Nat
  | 0, _, _, bitStart => bitStart
  | left + 1, bit, framesFound, bitStart =>
    if pat bit then
      if framesFound ≥ frameCount then bitStart
      else findLoop pat frameCount left (bit + 1) (framesFound + 1)
        (if bitStart = 0 then bit else bitStart)
    else findLoop pat frameCount left (bit + 1) 0 0

/-- `bits` is `get_bitmap_size()*8`, which the loop asks for again each time. -/
def findContigiousChunkOn (pat : Nat → Bool) (bits frameCount : Nat) : Nat :=
  findLoop pat frameCount (bits - 1) 1 0 0

def findContigiousChunk (bitmap : Bitmap) (bits frameCount : Nat) : Nat :=
  findContigiousChunkOn (readsFree bitmap) bits frameCount

def pmmAlloc (s : Pmm) (frames : BitVec 64) : Option (Pmm × Nat) := do
  let bitmapSize ← getBitmapSize s.entries
  let bit := findContigiousChunk s.bitmap (bitmapSize * 8) frames.toNat
  if bit = 0 then some (s, 0)
  else
    some ({ s with bitmap := setBits s.bitmap bit ((bit + frames.toNat) % 2^64 - bit) },
      pageSize * bit % 2^64)

def pmmFree (s : Pmm) (ptr : Nat) (frames : BitVec 64) : Pmm :=
  let stop := (ptr + frames.toNat * pageSize % 2^64) % 2^64
  { s with bitmap := unsetPages s.bitmap ptr (pageCount (stop - ptr)) }

/-! The pages `pmm_free` marks free. -/

theorem unsetPages_eq : ∀ {count : Nat} {bitmap : Bitmap} {address : Nat},
    address + 0x1000 * count < 2^64 →
    unsetPages bitmap address count = unsetBits bitmap (address / 0x1000) count
  | 0, _, _, _ => rfl
  | count + 1, bitmap, address, h => by
    have hmod : (address + 0x1000) % 2^64 = address + 0x1000 := by omega
    have hnext : (address + 0x1000) / 0x1000 = address / 0x1000 + 1 := by omega
    have hrest : address + 0x1000 + 0x1000 * count < 2^64 := by omega
    rw [unsetPages, hmod, unsetPages_eq hrest, hnext, unsetBits]

/-- Where the end of the pages does not wrap, they are the `frames` frames from
    `ptr` on. -/
theorem pmmFree_eq {s : Pmm} {ptr : Nat} {frames : BitVec 64} (ha : ptr % 0x1000 = 0)
    (hend : frames.toNat = 0 ∨ ptr + 0x1000 * frames.toNat < 2^64) :
    (pmmFree s ptr frames).bitmap = unsetBits s.bitmap (ptr / 0x1000) frames.toNat := by
  have hcount : pageCount ((ptr + frames.toNat * pageSize % 2^64) % 2^64 - ptr) = frames.toNat := by
    unfold pageCount pageSize
    omega
  simp only [pmmFree, hcount]
  rcases hend with hzero | hlt
  · rw [hzero]
    rfl
  · exact unsetPages_eq hlt

/-! What the scan finds. -/

/-- The `n` frames from `s` on all read as free. -/
def ReadFree (pat : Nat → Bool) (s n : Nat) : Prop :=
  ∀ f, s ≤ f → f < s + n → pat f = true

/-- The first place where `n + 1` frames in a row read as free. -/
structure FirstRun (pat : Nat → Bool) (bits n s : Nat) : Prop where
  pos : 1 ≤ s
  bound : s + n < bits
  free : ReadFree pat s (n + 1)
  first : ∀ s', 1 ≤ s' → s' < s → ¬ ReadFree pat s' (n + 1)

/-- The frames that read as free at the end of the bitmap. -/
structure TailRun (pat : Nat → Bool) (bits s : Nat) : Prop where
  pos : 1 ≤ s
  bound : s < bits
  free : ReadFree pat s (bits - s)
  maximal : s = 1 ∨ pat (s - 1) = false

/-- The state of the loop at `bit`: the last `found` frames read as free, no
    more of them do, and no `n + 1` before `bit` did. -/
structure LoopInv (pat : Nat → Bool) (n bit found start : Nat) : Prop where
  lt : found < bit
  start : start = if found = 0 then 0 else bit - found
  free : ReadFree pat (bit - found) found
  maximal : bit - found = 1 ∨ pat (bit - found - 1) = false
  short : found ≤ n
  none : ∀ s, 1 ≤ s → s + n < bit → ¬ ReadFree pat s (n + 1)

section
variable {pat : Nat → Bool} {n bit found start : Nat}

theorem loopInv_free (h : LoopInv pat n bit found start) (hfree : pat bit = true)
    (hlt : found < n) :
    LoopInv pat n (bit + 1) (found + 1) (if start = 0 then bit else start) := by
  have hbase : bit + 1 - (found + 1) = bit - found := by omega
  have hl := h.lt
  refine ⟨by omega, ?_, ?_, ?_, by omega, ?_⟩
  · rw [hbase]
    have hstart := h.start
    have hsucc : ¬ (found + 1 = 0) := by omega
    by_cases hz : found = 0
    · rw [if_pos hz] at hstart
      rw [if_pos hstart, if_neg hsucc, hz]
      rfl
    · rw [if_neg hz] at hstart
      have hne : ¬ (start = 0) := by omega
      rw [if_neg hne, if_neg hsucc, hstart]
  · intro f hf hf'
    by_cases hfb : f = bit
    · rw [hfb]
      exact hfree
    · exact h.free f (by omega) (by omega)
  · rw [hbase]
    exact h.maximal
  · intro s hs hsn hall
    by_cases hend : s + n < bit
    · exact h.none s hs hend hall
    · -- the window ends at `bit` and starts before the current run
      rcases h.maximal with hone | hused
      · omega
      · have hin := hall (bit - found - 1) (by omega) (by omega)
        rw [hused] at hin
        simp at hin

theorem loopInv_used (h : LoopInv pat n bit found start) (hused : pat bit = false) :
    LoopInv pat n (bit + 1) 0 0 := by
  refine ⟨by omega, rfl, ?_, .inr ?_, by omega, ?_⟩
  · intro f hf hf'
    omega
  · rw [Nat.sub_zero, Nat.add_sub_cancel]
    exact hused
  · intro s hs hsn hall
    by_cases hend : s + n < bit
    · exact h.none s hs hend hall
    · -- the window ends at `bit`, which is in use
      have hin := hall bit (by omega) (by omega)
      rw [hused] at hin
      simp at hin

/-- What the loop returns: the first long enough run, or else the run at the
    end, or 0. -/
def LoopResult (pat : Nat → Bool) (bits n r : Nat) : Prop :=
  FirstRun pat bits n r ∨
    ((∀ s, ¬ FirstRun pat bits n s) ∧
      (TailRun pat bits r ∨ (r = 0 ∧ ∀ s, ¬ TailRun pat bits s)))

/-- The end of the bitmap: no run was long enough, and what is left is the run
    that ends there. -/
theorem loopResult_end {bits found start : Nat} (h : LoopInv pat n bits found start) :
    LoopResult pat bits n start := by
  have hl := h.lt
  have hnone : ∀ s, ¬ FirstRun pat bits n s := by
    intro s hs
    have := hs.bound
    exact h.none s hs.pos (by omega) hs.free
  refine .inr ⟨hnone, ?_⟩
  rw [h.start]
  by_cases hz : found = 0
  · subst hz
    refine .inr ⟨rfl, ?_⟩
    intro s hs
    have hpos := hs.pos
    have hb := hs.bound
    rcases h.maximal with hone | hused
    · omega
    · have := hs.free (bits - 0 - 1) (by omega) (by omega)
      rw [hused] at this
      simp at this
  · rw [if_neg hz]
    refine .inl ⟨by omega, by omega, ?_, h.maximal⟩
    intro f hf hf'
    exact h.free f hf (by omega)

theorem findLoop_spec (hn : 1 ≤ n) {bits : Nat} : ∀ {left bit found start : Nat},
    bit + left = bits → LoopInv pat n bit found start →
    LoopResult pat bits n (findLoop pat n left bit found start)
  | 0, bit, found, start, hbits, h => by
    rw [Nat.add_zero] at hbits
    subst hbits
    rw [findLoop]
    exact loopResult_end h
  | left + 1, bit, found, start, hbits, h => by
    have hl := h.lt
    have hs := h.short
    rw [findLoop]
    cases hr : pat bit with
    | true =>
      by_cases hge : found ≥ n
      · -- one frame more than was asked for
        have hfn : found = n := by omega
        subst hfn
        rw [if_pos rfl, if_pos hge, h.start, if_neg (by omega)]
        refine .inl ⟨by omega, by omega, ?_, ?_⟩
        · intro f hf hf'
          by_cases hfb : f = bit
          · rw [hfb]
            exact hr
          · exact h.free f hf (by omega)
        · intro s' hs' hlt
          exact h.none s' hs' (by omega)
      · rw [if_pos rfl, if_neg hge]
        exact findLoop_spec hn (by omega) (loopInv_free h hr (by omega))
    | false =>
      rw [if_neg (by simp)]
      exact findLoop_spec hn (by omega) (loopInv_used h hr)

theorem findContigiousChunkOn_spec (hn : 1 ≤ n) (pat : Nat → Bool) (bits : Nat) :
    LoopResult pat bits n (findContigiousChunkOn pat bits n) := by
  by_cases hb : bits = 0
  · subst hb
    refine .inr ⟨?_, .inr ⟨rfl, ?_⟩⟩
    · intro s hs
      have := hs.bound
      omega
    · intro s hs
      have := hs.bound
      omega
  · -- the scan starts at bit 1: bit 0 would be the 0 that means nothing was found
    refine findLoop_spec hn (by omega) ⟨by decide, rfl, ?_, .inl rfl, by omega, ?_⟩
    · intro f hf hf'
      omega
    · intro s hs hsn
      omega

/-- No frames are asked for and none are found. -/
theorem findLoop_zero (pat : Nat → Bool) : ∀ left bit : Nat, findLoop pat 0 left bit 0 0 = 0
  | 0, _ => rfl
  | left + 1, bit => by
    rw [findLoop]
    split
    · rfl
    · exact findLoop_zero pat left (bit + 1)

end

/-! When the scan can be trusted. -/

/-- The `n` frames from `s` on are free. -/
def Clear (bitmap : Bitmap) (s n : Nat) : Prop := ∀ f, s ≤ f → f < s + n → Bitmap.bit bitmap f = false

/-- The first `n + 1` frames in a row that read as free are free, but for the
    last; where there are none, the frames at the end that read as free, if
    any, are not fewer than `n` and are free. -/
structure HonestScan (bitmap : Bitmap) (bits n : Nat) : Prop where
  run : ∀ s, FirstRun (readsFree bitmap) bits n s → Clear bitmap s n
  tail : (∀ s, ¬ FirstRun (readsFree bitmap) bits n s) →
    ∀ s, TailRun (readsFree bitmap) bits s → s + n ≤ bits ∧ Clear bitmap s n

theorem FirstRun.unique {pat : Nat → Bool} {bits n r s : Nat} (hr : FirstRun pat bits n r)
    (hs : FirstRun pat bits n s) : r = s := by
  rcases Nat.lt_trichotomy r s with hlt | heq | hlt
  · exact absurd hr.free (hs.first r hr.pos hlt)
  · exact heq
  · exact absurd hs.free (hr.first s hs.pos hlt)

/-- The frame before a run at the end is in no longer run. -/
theorem TailRun.not_lt {pat : Nat → Bool} {bits r s : Nat} (hr : TailRun pat bits r)
    (hs : TailRun pat bits s) : ¬ r < s := by
  intro hlt
  have hpos := hr.pos
  have hb := hs.bound
  rcases hs.maximal with hone | hused
  · omega
  · have hfree := hr.free (s - 1) (by omega) (by omega)
    rw [hused] at hfree
    simp at hfree

theorem TailRun.unique {pat : Nat → Bool} {bits r s : Nat} (hr : TailRun pat bits r)
    (hs : TailRun pat bits s) : r = s := by
  have h₁ := hr.not_lt hs
  have h₂ := hs.not_lt hr
  omega

/-- The scan finds nothing or `n` free frames exactly when it is honest. -/
theorem honestScan_iff (bitmap : Bitmap) (bits : Nat) {n : Nat} (hn : 1 ≤ n) :
    HonestScan bitmap bits n ↔
      (findContigiousChunk bitmap bits n ≠ 0 → findContigiousChunk bitmap bits n + n ≤ bits ∧
        Clear bitmap (findContigiousChunk bitmap bits n) n) := by
  have hspec := findContigiousChunkOn_spec hn (readsFree bitmap) bits
  rw [findContigiousChunk]
  generalize findContigiousChunkOn (readsFree bitmap) bits n = r at hspec ⊢
  refine ⟨?_, ?_⟩
  · intro h hr
    rcases hspec with hrun | ⟨hnone, htail | ⟨hzero, -⟩⟩
    · exact ⟨Nat.le_of_lt hrun.bound, h.run r hrun⟩
    · exact h.tail hnone r htail
    · exact absurd hzero hr
  · intro h
    refine ⟨?_, ?_⟩
    · intro s hs
      rcases hspec with hrun | ⟨hnone, -⟩
      · have hrs := hrun.unique hs
        subst hrs
        exact (h (by have := hrun.pos; omega)).2
      · exact absurd hs (hnone s)
    · intro hnone s hs
      rcases hspec with hrun | ⟨-, htail | ⟨-, hno⟩⟩
      · exact absurd hrun (hnone r)
      · have hrs := htail.unique hs
        subst hrs
        exact h (by have := htail.pos; omega)
      · exact absurd hs (hno s)

instance (bitmap : Bitmap) (s n : Nat) : Decidable (Clear bitmap s n) :=
  decidable_of_iff (∀ i < n, Bitmap.bit bitmap (s + i) = false) (by
    refine ⟨?_, ?_⟩
    · intro h f hf hf'
      have hi := h (f - s) (by omega)
      rwa [show s + (f - s) = f by omega] at hi
    · intro h i hi
      exact h (s + i) (by omega) (by omega))

theorem honestScan_zero (bitmap : Bitmap) (bits : Nat) : HonestScan bitmap bits 0 where
  run _ _ f hf hf' := by omega
  tail _ s hs := ⟨Nat.le_of_lt hs.bound, fun f hf hf' => by omega⟩

instance (bitmap : Bitmap) (bits : Nat) : (n : Nat) → Decidable (HonestScan bitmap bits n)
  | 0 => isTrue (honestScan_zero bitmap bits)
  | n + 1 => decidable_of_iff' _ (honestScan_iff bitmap bits (Nat.succ_pos n))

/-! When what the scan finds is long enough, whatever the test reads. -/

section
variable {pat : Nat → Bool} {bits n s : Nat}

theorem exists_firstRun (hs : 1 ≤ s) (hb : s + n < bits) (hfree : ReadFree pat s (n + 1)) :
    ∃ r, FirstRun pat bits n r := by
  -- by strong induction on the start: it is the first, or there is an earlier one
  induction s using Nat.strongRecOn with
  | _ s ih =>
    by_cases hfirst : ∃ s', 1 ≤ s' ∧ s' < s ∧ ReadFree pat s' (n + 1)
    · obtain ⟨s', hs', hlt, hfree'⟩ := hfirst
      exact ih s' hlt hs' (by omega) hfree'
    · refine ⟨s, hs, hb, hfree, ?_⟩
      intro s' hs' hlt hfree'
      exact hfirst ⟨s', hs', hlt, hfree'⟩

theorem exists_tailRun (hs : 1 ≤ s) (hb : s < bits) (hfree : ReadFree pat s (bits - s)) :
    ∃ r, TailRun pat bits r := by
  induction s with
  | zero => omega
  | succ s ih =>
    by_cases hend : s + 1 = 1 ∨ pat s = false
    · exact ⟨s + 1, hs, hb, hfree, hend⟩
    · rw [not_or, Bool.not_eq_false] at hend
      apply ih (by omega) (by omega)
      intro f hf hf'
      by_cases hfs : f = s
      · rw [hfs]
        exact hend.2
      · exact hfree f (by omega) (by omega)

/-- The last frame alone is a run at the end. -/
theorem exists_tailRun_iff :
    (∃ s, TailRun pat bits s) ↔ 1 < bits ∧ pat (bits - 1) = true := by
  refine ⟨?_, ?_⟩
  · intro h
    obtain ⟨s, hs⟩ := h
    have hpos := hs.pos
    have hb := hs.bound
    exact ⟨by omega, hs.free (bits - 1) (by omega) (by omega)⟩
  · intro h
    obtain ⟨hb, hlast⟩ := h
    refine exists_tailRun (s := bits - 1) (by omega) (by omega) ?_
    intro f hf hf'
    have hfe : f = bits - 1 := by omega
    rw [hfe]
    exact hlast

/-- A run at the end starts no later than any frames that reach the end. -/
theorem TailRun.le (h : TailRun pat bits s) {k : Nat} (hk : 1 ≤ k) (hfree : ReadFree pat k (bits - k)) :
    s ≤ k := by
  have hb := h.bound
  apply Classical.byContradiction
  intro hlt
  rcases h.maximal with hone | hused
  · omega
  · rw [hfree (s - 1) (by omega) (by omega)] at hused
    cases hused

end

/-- **When the run search returns a long enough run.** For every pattern of
    free and used frames: what `find_contigious_chunk` returns, if not 0, is the
    start of `n` free frames below `bits`, and the frames `pmm_alloc` then marks
    are free and below `bits`, exactly when some `n + 1` frames in a row are
    free, or the last frame is used, or the last `n` frames are free. -/
theorem run_search_iff (pat : Nat → Bool) (bits n : Nat) (hn : 1 ≤ n) :
    (∀ r, findContigiousChunkOn pat bits n = r → r ≠ 0 →
      (r + n ≤ bits ∧ ReadFree pat r n) ∧
        ∀ f, r ≤ f → f < r + ((r + n) % 2^64 - r) → f < bits ∧ pat f = true) ↔
    (∃ s, 1 ≤ s ∧ s + n < bits ∧ ReadFree pat s (n + 1)) ∨
      (bits ≤ 1 ∨ pat (bits - 1) = false) ∨ (n < bits ∧ ReadFree pat (bits - n) n) := by
  have hspec := findContigiousChunkOn_spec hn pat bits
  generalize findContigiousChunkOn pat bits n = r at hspec ⊢
  refine ⟨?_, ?_⟩
  · intro hlong
    rcases hspec with hrun | ⟨-, htail | ⟨-, hno⟩⟩
    · exact .inl ⟨r, hrun.pos, hrun.bound, hrun.free⟩
    · have hpos := htail.pos
      obtain ⟨⟨hfit, -⟩, -⟩ := hlong r rfl (by omega)
      refine .inr (.inr ⟨by omega, ?_⟩)
      intro f hf hf'
      exact htail.free f (by omega) (by omega)
    · refine .inr (.inl ?_)
      apply Classical.byContradiction
      intro hend
      rw [not_or, Bool.not_eq_false] at hend
      obtain ⟨s, hs⟩ := exists_tailRun_iff.mpr ⟨by omega, hend.2⟩
      exact hno s hs
  · intro hcase _ heq hr
    subst heq
    have hfree : r + n ≤ bits ∧ ReadFree pat r n := by
      rcases hspec with hrun | ⟨hnone, htail | ⟨hzero, -⟩⟩
      · refine ⟨Nat.le_of_lt hrun.bound, ?_⟩
        intro f hf hf'
        exact hrun.free f hf (by omega)
      · have hb := htail.bound
        rcases hcase with ⟨s, hs, hsb, hfree⟩ | (hsmall | hused) | ⟨hlt, hfree⟩
        · obtain ⟨r', hr'⟩ := exists_firstRun hs hsb hfree
          exact absurd hr' (hnone r')
        · have := htail.pos
          omega
        · rw [htail.free (bits - 1) (by omega) (by omega)] at hused
          cases hused
        · have hle : r ≤ bits - n := by
            apply htail.le (by omega)
            rwa [show bits - (bits - n) = n by omega]
          refine ⟨by omega, ?_⟩
          intro f hf hf'
          exact htail.free f hf (by omega)
      · exact absurd hzero hr
    refine ⟨hfree, ?_⟩
    intro f hf hf'
    have hle : (r + n) % 2^64 ≤ r + n := Nat.mod_le _ _
    exact ⟨by omega, hfree.2 f hf (by omega)⟩

/-- Of eight frames the last two are free, and two are asked for. -/
theorem run_search_last_two :
    findContigiousChunkOn (fun f => decide (6 ≤ f)) 8 2 = 6 ∧
      6 + 2 ≤ 8 ∧ ReadFree (fun f => decide (6 ≤ f)) 6 2 := by
  have hlast : ReadFree (fun f => decide (6 ≤ f)) (8 - 2) 2 := by
    intro f hf _
    exact decide_eq_true hf
  have hlong := (run_search_iff (fun f => decide (6 ≤ f)) 8 2 (by decide)).mpr
    (.inr (.inr ⟨by decide, hlast⟩))
  exact ⟨by decide, (hlong 6 (by decide) (by decide)).1⟩

/-- The last two frames of a bitmap of one page are free, and three are asked
    for: the two are returned, with a frame behind the bitmap. -/
theorem short_run_returned :
    findContigiousChunkOn (fun f => decide (32766 ≤ f)) (0x1000 * 8) 3 = 32766 ∧
      ¬ 32766 + 3 ≤ 0x1000 * 8 := by
  refine ⟨?_, by decide⟩
  have htwo : TailRun (fun f => decide (32766 ≤ f)) (0x1000 * 8) 32766 :=
    ⟨by decide, by decide, fun f hf _ => decide_eq_true hf, .inr (by decide)⟩
  have hspec := findContigiousChunkOn_spec (n := 3) (by decide)
    (fun f => decide (32766 ≤ f)) (0x1000 * 8)
  generalize findContigiousChunkOn _ _ _ = r at hspec ⊢
  rcases hspec with hrun | ⟨-, htail | ⟨-, hno⟩⟩
  · have hb := hrun.bound
    have hfirst := of_decide_eq_true (hrun.free r (Nat.le_refl r) (by omega))
    omega
  · exact htail.unique htwo
  · exact absurd htwo (hno 32766)

/-! When something is found. -/

section
variable {pat : Nat → Bool} {bits n : Nat}

theorem ReadFree.mono {s m : Nat} (h : ReadFree pat s n) (hle : m ≤ n) : ReadFree pat s m := by
  intro f hf hf'
  exact h f hf (by omega)

/-- Something is found exactly when one frame more than was asked for reads as
    free in a row, or the last frame does. -/
theorem findContigiousChunkOn_ne_zero_iff (hn : 1 ≤ n) :
    findContigiousChunkOn pat bits n ≠ 0 ↔
      (∃ s, 1 ≤ s ∧ s + n < bits ∧ ReadFree pat s (n + 1)) ∨
        (1 < bits ∧ pat (bits - 1) = true) := by
  have hspec := findContigiousChunkOn_spec hn pat bits
  generalize findContigiousChunkOn pat bits n = r at hspec ⊢
  rw [← exists_tailRun_iff]
  refine ⟨?_, ?_⟩
  · intro hr
    rcases hspec with hrun | ⟨-, htail | ⟨hzero, -⟩⟩
    · exact .inl ⟨r, hrun.pos, hrun.bound, hrun.free⟩
    · exact .inr ⟨r, htail⟩
    · exact absurd hzero hr
  · intro hcase hr
    subst hr
    rcases hspec with hrun | ⟨hnone, htail | ⟨-, hno⟩⟩
    · exact absurd hrun.pos (by decide)
    · exact absurd htail.pos (by decide)
    · rcases hcase with ⟨s, hs, hb, hfree⟩ | ⟨s, hs⟩
      · obtain ⟨r, hr⟩ := exists_firstRun hs hb hfree
        exact hnone r hr
      · exact hno s hs

end

/-- **When a fitting run is not missed.** For every pattern: if some `n` frames
    in a row are free then something is found, exactly when there are no such
    `n` frames, or some `n + 1` frames in a row are free, or the last frame is.
    The loop compares its count with `n` before it counts the frame it is at. -/
theorem fitting_run_found_iff (pat : Nat → Bool) (bits n : Nat) (hn : 1 ≤ n) :
    ((∃ s, 1 ≤ s ∧ s + n ≤ bits ∧ ReadFree pat s n) → findContigiousChunkOn pat bits n ≠ 0) ↔
      (¬ ∃ s, 1 ≤ s ∧ s + n ≤ bits ∧ ReadFree pat s n) ∨
        (∃ s, 1 ≤ s ∧ s + n < bits ∧ ReadFree pat s (n + 1)) ∨
          (1 < bits ∧ pat (bits - 1) = true) := by
  rw [findContigiousChunkOn_ne_zero_iff hn]
  exact imp_iff_not_or

theorem fitting_run_found_longer :
    findContigiousChunkOn (fun f => decide (5 ≤ f ∧ f ≤ 7)) 16 2 ≠ 0 := by
  have hthree : ReadFree (fun f => decide (5 ≤ f ∧ f ≤ 7)) 5 3 := by
    intro f hf hf'
    exact decide_eq_true ⟨hf, by omega⟩
  have hfound := (fitting_run_found_iff (fun f => decide (5 ≤ f ∧ f ≤ 7)) 16 2 (by decide)).mpr
    (.inr (.inl ⟨5, by decide, by decide, hthree⟩))
  exact hfound ⟨5, by decide, by decide, hthree.mono (by decide)⟩

/-- Frames 5 and 6 of a bitmap of one page are free and two are asked for. -/
theorem fitting_run_missed :
    ¬ ((∃ s, 1 ≤ s ∧ s + 2 ≤ 0x1000 * 8 ∧ ReadFree (fun f => decide (5 ≤ f ∧ f ≤ 6)) s 2) →
      findContigiousChunkOn (fun f => decide (5 ≤ f ∧ f ≤ 6)) (0x1000 * 8) 2 ≠ 0) := by
  rw [findContigiousChunkOn_ne_zero_iff (by decide)]
  intro hfound
  have htwo : ReadFree (fun f => decide (5 ≤ f ∧ f ≤ 6)) 5 2 := by
    intro f hf hf'
    exact decide_eq_true ⟨hf, by omega⟩
  rcases hfound ⟨5, by decide, by decide, htwo⟩ with ⟨s, -, -, hfree⟩ | ⟨-, hlast⟩
  · have hfirst := of_decide_eq_true (hfree s (Nat.le_refl s) (by omega))
    have hlast := of_decide_eq_true (hfree (s + 2) (by omega) (by omega))
    omega
  · have hle := (of_decide_eq_true hlast).2
    exact absurd hle (by decide)

/-- **First fit.** Where some `n + 1` frames in a row are free, the search
    returns the lowest start of such a run. -/
theorem first_fit (pat : Nat → Bool) (bits n : Nat) (hn : 1 ≤ n)
    (hfits : ∃ s, 1 ≤ s ∧ s + n < bits ∧ ∀ f, s ≤ f → f ≤ s + n → pat f = true) :
    IsLeast {s | 1 ≤ s ∧ s + n < bits ∧ ∀ f, s ≤ f → f ≤ s + n → pat f = true}
      (findContigiousChunkOn pat bits n) := by
  have hspec := findContigiousChunkOn_spec hn pat bits
  generalize findContigiousChunkOn pat bits n = r at hspec ⊢
  have hrun : FirstRun pat bits n r := by
    rcases hspec with hrun | ⟨hnone, -⟩
    · exact hrun
    · obtain ⟨s, hs, hb, hfree⟩ := hfits
      have hread : ReadFree pat s (n + 1) := fun f hf hf' => hfree f hf (by omega)
      obtain ⟨s', hs'⟩ := exists_firstRun hs hb hread
      exact absurd hs' (hnone s')
  refine ⟨⟨hrun.pos, hrun.bound, ?_⟩, ?_⟩
  · intro f hf hf'
    exact hrun.free f hf (by omega)
  · intro s hs
    obtain ⟨hpos, -, hfree⟩ := hs
    apply Nat.le_of_not_lt
    intro hlt
    exact hrun.first s hpos hlt (fun f hf hf' => hfree f hf (by omega))

/-- Frame 3 is free alone, and the frames from 5 on with it. -/
theorem first_fit_behind_gap :
    findContigiousChunkOn (fun f => decide (f = 3 ∨ 5 ≤ f)) 16 2 = 5 ∧
      IsLeast {s | 1 ≤ s ∧ s + 2 < 16 ∧ ∀ f, s ≤ f → f ≤ s + 2 →
        (fun f => decide (f = 3 ∨ 5 ≤ f)) f = true} 5 := by
  have hfree : ∀ f, 5 ≤ f → f ≤ 5 + 2 → (fun f => decide (f = 3 ∨ 5 ≤ f)) f = true :=
    fun f hf _ => decide_eq_true (.inr hf)
  have hleast := first_fit (fun f => decide (f = 3 ∨ 5 ≤ f)) 16 2 (by decide)
    ⟨5, by decide, by decide, hfree⟩
  exact ⟨by decide, hleast⟩

end Qnixx
