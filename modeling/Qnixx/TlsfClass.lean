import Mathlib.Algebra.Group.Nat.Defs
import Mathlib.Tactic.Common

/- The size classes of the kernel's allocator (`mm/tlsf.c`). A first level
   splits the sizes at the powers of two, a second level each of these ranges
   into 32 parts; sizes below 256 are one range of their own. A free block is
   kept under the class of its size (`mapping_insert`). A request is rounded up
   to the next class first (`mapping_search`), so that every block of the class
   it finds, and of every later one, is large enough. -/
namespace Qnixx.Tlsf

/-! Constants, as they are for 64 bits. -/

def slIndexCountLog2 : Nat := 5
def alignSizeLog2 : Nat := 3
def alignSize : BitVec 64 := 8
def flIndexMax : Nat := 32
def slIndexCount : Nat := 32
def flIndexShift : Nat := slIndexCountLog2 + alignSizeLog2
def flIndexCount : Nat := flIndexMax - flIndexShift + 1
def smallBlockSize : BitVec 64 := 256
def blockSizeMin : BitVec 64 := 24
def blockSizeMax : BitVec 64 := 1#64 <<< flIndexMax

/-! Bits. The builtins of the compiler count zeros and find the first one. -/

def tlsfFfs (word : BitVec 32) : Int := ((if word = 0 then 0 else word.ctz.toNat + 1 : Nat) : Int) - 1

def tlsfFls (word : BitVec 32) : Int := ((if word ≠ 0 then 32 - word.clz.toNat else 0 : Nat) : Int) - 1

def tlsfFlsSizet (size : BitVec 64) : Int :=
  let high := (size >>> 32).setWidth 32
  if high ≠ 0 then 32 + tlsfFls high else tlsfFls (size.setWidth 32)

/-- The lists for a block of the size. -/
def mappingInsert (size : BitVec 64) : Nat × Nat :=
  if size < smallBlockSize then (0, size.toNat / (smallBlockSize.toNat / slIndexCount))
  else
    -- not negative, as the size is not 0
    let fl := (tlsfFlsSizet size).toNat
    let sl := (size >>> (fl - slIndexCountLog2)).setWidth 32 ^^^ (1#32 <<< slIndexCountLog2)
    (fl - (flIndexShift - 1), sl.toNat)

/-- The lists to search for a request; the rounding is an `int`. -/
def mappingSearch (size : BitVec 64) : Nat × Nat :=
  if smallBlockSize ≤ size then
    let round : BitVec 32 := (1#32 <<< ((tlsfFlsSizet size).toNat - slIndexCountLog2)) - 1
    mappingInsert (size + round.signExtend 64)
  else mappingInsert size

/-! The classes as numbers. -/

/-- The class of a size. -/
def sizeClass (n : Nat) : Nat × Nat :=
  if n < 256 then (0, n / 8) else (n.log2 - 7, n / 2^(n.log2 - 5) - 32)

/-- The least size of a class. -/
def classMin (c : Nat × Nat) : Nat :=
  if c.1 = 0 then 8 * c.2 else (32 + c.2) * 2^(c.1 + 2)

/-- The classes in the order in which they are searched. -/
def ClassLe (c d : Nat × Nat) : Prop := c.1 < d.1 ∨ c.1 = d.1 ∧ c.2 ≤ d.2

instance (c d : Nat × Nat) : Decidable (ClassLe c d) :=
  inferInstanceAs (Decidable (_ ∨ _))

theorem tlsfFls_eq {word : BitVec 32} (h : word ≠ 0) : tlsfFls word = word.toNat.log2 := by
  have hlow := BitVec.two_pow_sub_clz_le_toNat_of_ne_zero (by decide) h
  have hhigh := BitVec.toNat_lt_two_pow_sub_clz (x := word)
  have hclz : word.clz.toNat < 32 := BitVec.lt_def.mp (BitVec.clz_lt_iff_ne_zero.mpr h)
  have hpos : word.toNat ≠ 0 := fun hzero => h (BitVec.eq_of_toNat_eq hzero)
  have hlog : word.toNat.log2 = 32 - 1 - word.clz.toNat := by
    rw [Nat.log2_eq_iff hpos, show 32 - 1 - word.clz.toNat + 1 = 32 - word.clz.toNat by omega]
    exact ⟨hlow, hhigh⟩
  rw [tlsfFls, if_pos h, hlog]
  omega

/-- Where the word has a bit, `tlsf_ffs` is the lowest. -/
theorem tlsfFfs_spec {word : BitVec 32} (h : word ≠ 0) :
    ∃ i, tlsfFfs word = (i : Nat) ∧ i < 32 ∧ word.getLsbD i = true ∧ ∀ j < i, word.getLsbD j = false := by
  refine ⟨word.ctz.toNat, ?_, BitVec.lt_def.mp (BitVec.ctz_lt_iff_ne_zero.mpr h),
    BitVec.getLsbD_true_ctz_of_ne_zero h, fun j hj => BitVec.getLsbD_false_of_lt_ctz hj⟩
  rw [tlsfFfs, if_neg h]
  omega

theorem tlsfFlsSizet_eq {size : BitVec 64} (h : size ≠ 0) : tlsfFlsSizet size = size.toNat.log2 := by
  have hpos : size.toNat ≠ 0 := fun hzero => h (BitVec.eq_of_toNat_eq hzero)
  have hlt := size.isLt
  have hhigh : ((size >>> 32).setWidth 32).toNat = size.toNat / 2^32 := by
    rw [BitVec.toNat_setWidth, BitVec.toNat_ushiftRight, Nat.shiftRight_eq_div_pow]
    omega
  rw [tlsfFlsSizet]
  by_cases hzero : (size >>> 32).setWidth 32 = 0
  · have hsmall : size.toNat < 2^32 := by
      rw [hzero] at hhigh
      have hnil : (0 : BitVec 32).toNat = 0 := rfl
      omega
    have hlow : (size.setWidth 32).toNat = size.toNat := by
      rw [BitVec.toNat_setWidth, Nat.mod_eq_of_lt hsmall]
    have hne : size.setWidth 32 ≠ 0 := by
      intro heq
      rw [heq] at hlow
      exact hpos hlow.symm
    rw [if_neg (not_not.mpr hzero), tlsfFls_eq hne, hlow]
  · generalize hq : size.toNat / 2^32 = q at hhigh
    have hbig : q ≠ 0 := by
      rw [← hhigh]
      exact fun heq => hzero (BitVec.eq_of_toNat_eq heq)
    have hsum : size.toNat.log2 = 32 + q.log2 := by
      have hlog := (Nat.log2_eq_iff hbig).mp rfl
      rw [Nat.log2_eq_iff hpos, Nat.add_assoc, Nat.pow_add, Nat.pow_add]
      omega
    rw [if_pos hzero, tlsfFls_eq hzero, hhigh, hsum]
    omega

/-- The numbers from `2^k` on below `2^(k+1)`, by their first six bits. -/
theorem log2_slice {n : Nat} (h : 256 ≤ n) :
    32 ≤ n / 2^(n.log2 - 5) ∧ n / 2^(n.log2 - 5) < 64 ∧ 8 ≤ n.log2 := by
  have hpos : n ≠ 0 := by omega
  have hlog := (Nat.log2_eq_iff hpos).mp rfl
  have height : 8 ≤ n.log2 := (Nat.le_log2 hpos).mpr h
  have hunit : 0 < 2^(n.log2 - 5) := Nat.two_pow_pos _
  refine ⟨?_, ?_, height⟩
  · rw [Nat.le_div_iff_mul_le hunit, show 32 = 2^5 from rfl, ← Nat.pow_add, show 5 + (n.log2 - 5) = n.log2 by omega]
    exact hlog.1
  · rw [Nat.div_lt_iff_lt_mul hunit, show 64 = 2^6 from rfl, ← Nat.pow_add,
      show 6 + (n.log2 - 5) = n.log2 + 1 by omega]
    exact hlog.2

theorem mappingInsert_eq (size : BitVec 64) : mappingInsert size = sizeClass size.toNat := by
  have hlimit : smallBlockSize.toNat = 256 := rfl
  rw [mappingInsert, sizeClass]
  by_cases hsmall : size < smallBlockSize
  · rw [if_pos hsmall, if_pos (by rw [← hlimit]; exact BitVec.lt_def.mp hsmall)]
    rfl
  · have hbig : 256 ≤ size.toNat := by
      rw [← hlimit]
      exact Nat.le_of_not_lt (fun hlt => hsmall (BitVec.lt_def.mpr hlt))
    have hne : size ≠ 0 := by
      intro heq
      rw [heq] at hbig
      exact absurd hbig (by decide)
    obtain ⟨hlow, hhigh, hlog⟩ := log2_slice hbig
    have hfls : (tlsfFlsSizet size).toNat = size.toNat.log2 := by
      rw [tlsfFlsSizet_eq hne]
      rfl
    rw [if_neg hsmall, if_neg (by omega)]
    dsimp only
    rw [hfls]
    refine Prod.ext rfl ?_
    have hslice : ((size >>> (size.toNat.log2 - slIndexCountLog2)).setWidth 32).toNat =
        size.toNat / 2^(size.toNat.log2 - 5) := by
      rw [BitVec.toNat_setWidth, BitVec.toNat_ushiftRight, Nat.shiftRight_eq_div_pow]
      exact Nat.mod_eq_of_lt (by show size.toNat / 2^(size.toNat.log2 - 5) < 2^32; omega)
    show (_ ^^^ _ : BitVec 32).toNat = _
    rw [BitVec.toNat_xor, hslice, show (1#32 <<< slIndexCountLog2).toNat = 32 from rfl]
    -- the number has bit 5 and none above it
    have hcases : ∀ q < 32, (32 + q) ^^^ 32 = q := by decide
    have := hcases (size.toNat / 2^(size.toNat.log2 - 5) - 32) (by omega)
    rwa [show 32 + (size.toNat / 2^(size.toNat.log2 - 5) - 32) = size.toNat / 2^(size.toNat.log2 - 5) by omega] at this

/-- Where the search for a request starts. -/
def searchClass (n : Nat) : Nat × Nat :=
  if 256 ≤ n then sizeClass (n + (2^(n.log2 - 5) - 1)) else sizeClass n

theorem mappingSearch_eq {size : BitVec 64} (h : size.toNat < 2^32) :
    mappingSearch size = searchClass size.toNat := by
  have hlimit : smallBlockSize.toNat = 256 := rfl
  rw [mappingSearch, searchClass]
  by_cases hbig : 256 ≤ size.toNat
  · have hne : size ≠ 0 := by
      intro heq
      rw [heq] at hbig
      exact absurd hbig (by decide)
    have hpos : size.toNat ≠ 0 := by omega
    have hlog : size.toNat.log2 < 32 := (Nat.log2_lt hpos).mpr h
    have hfls : (tlsfFlsSizet size).toNat - slIndexCountLog2 = size.toNat.log2 - 5 := by
      rw [tlsfFlsSizet_eq hne]
      rfl
    have hpow : 2^(size.toNat.log2 - 5) ≤ 2^26 := Nat.pow_le_pow_right (by decide) (by omega)
    have hunit : 0 < 2^(size.toNat.log2 - 5) := Nat.two_pow_pos _
    have hround : ((1#32 <<< (size.toNat.log2 - 5)) - 1).toNat = 2^(size.toNat.log2 - 5) - 1 := by
      have hshift : (1#32 <<< (size.toNat.log2 - 5)).toNat = 2^(size.toNat.log2 - 5) := by
        rw [BitVec.toNat_shiftLeft, Nat.shiftLeft_eq]
        show 1 % 2^32 * _ % 2^32 = _
        omega
      rw [BitVec.toNat_sub, hshift]
      show (2^32 - 1 + _) % 2^32 = _
      omega
    have hsigned : (((1#32 <<< (size.toNat.log2 - 5)) - 1).signExtend 64).toNat = 2^(size.toNat.log2 - 5) - 1 := by
      rw [BitVec.signExtend_eq_setWidth_of_msb_false, BitVec.toNat_setWidth, hround]
      · omega
      · rw [BitVec.msb_eq_false_iff_two_mul_lt, hround]
        omega
    rw [if_pos (by rw [BitVec.le_def, hlimit]; exact hbig), if_pos hbig, hfls]
    dsimp only
    rw [mappingInsert_eq, BitVec.toNat_add, hsigned, Nat.mod_eq_of_lt (by omega)]
  · rw [if_neg (by rw [BitVec.le_def, hlimit]; exact hbig), if_neg hbig, mappingInsert_eq]

/-! The order of the classes. -/

theorem sizeClass_snd_lt (n : Nat) : (sizeClass n).2 < 32 := by
  rw [sizeClass]
  split
  · show n / 8 < 32
    omega
  · have := log2_slice (n := n) (by omega)
    show n / 2^(n.log2 - 5) - 32 < 32
    omega

theorem sizeClass_fst_lt {n : Nat} (h : n < 2^32) : (sizeClass n).1 < flIndexCount := by
  show _ < 25
  rw [sizeClass]
  split
  · show 0 < 25
    omega
  · have : n.log2 < 32 := (Nat.log2_lt (by omega)).mpr h
    show n.log2 - 7 < 25
    omega

/-- A class starts at most at its sizes. -/
theorem classMin_sizeClass_le (n : Nat) : classMin (sizeClass n) ≤ n := by
  rw [sizeClass]
  split
  · show 8 * (n / 8) ≤ n
    omega
  · obtain ⟨hlow, hhigh, hlog⟩ := log2_slice (n := n) (by omega)
    rw [classMin, if_neg (by show n.log2 - 7 ≠ 0; omega)]
    show (32 + (n / 2^(n.log2 - 5) - 32)) * 2^(n.log2 - 7 + 2) ≤ n
    rw [show 32 + (n / 2^(n.log2 - 5) - 32) = n / 2^(n.log2 - 5) by omega, show n.log2 - 7 + 2 = n.log2 - 5 by omega]
    exact Nat.div_mul_le_self n _

/-- Later classes start later. -/
theorem classMin_mono {c d : Nat × Nat} (hc : c.2 < 32) (h : ClassLe c d) : classMin c ≤ classMin d := by
  rcases h with hlt | ⟨heq, hle⟩
  · have hd : d.1 ≠ 0 := by omega
    have htop : 32 * 2^(d.1 + 2) ≤ classMin d := by
      rw [classMin, if_neg hd]
      exact Nat.mul_le_mul_right _ (by omega)
    refine Nat.le_trans ?_ htop
    rw [classMin]
    split
    · have : 2^3 ≤ 2^(d.1 + 2) := Nat.pow_le_pow_right (by decide) (by omega)
      omega
    · have hpow : 2^(c.1 + 2 + 1) ≤ 2^(d.1 + 2) := Nat.pow_le_pow_right (by decide) (by omega)
      have hhalf : (32 + c.2) * 2^(c.1 + 2) ≤ 64 * 2^(c.1 + 2) := Nat.mul_le_mul_right _ (by omega)
      rw [Nat.pow_succ] at hpow
      omega
  · rw [classMin, classMin, heq]
    split
    · omega
    · exact Nat.mul_le_mul_right _ (by omega)

/-- A size that its class' start does not reach is in an earlier class. -/
theorem classLe_sizeClass {c : Nat × Nat} {n : Nat} (hc : c.2 < 32) (h : classMin c ≤ n) : ClassLe c (sizeClass n) := by
  rw [ClassLe, sizeClass]
  rw [classMin] at h
  split at h
  · next hzero =>
    split
    · right
      exact ⟨hzero, by show c.2 ≤ n / 8; omega⟩
    · left
      have := (log2_slice (n := n) (by omega)).2.2
      show c.1 < n.log2 - 7
      omega
  · next hne =>
    have hbig : 256 ≤ n := by
      have : 2^3 ≤ 2^(c.1 + 2) := Nat.pow_le_pow_right (by decide) (by omega)
      have := Nat.mul_le_mul (show 32 ≤ 32 + c.2 by omega) this
      omega
    rw [if_neg (by omega)]
    obtain ⟨hlow, hhigh, height⟩ := log2_slice hbig
    have hpos : n ≠ 0 := by omega
    have hlog : c.1 + 7 ≤ n.log2 := by
      rw [Nat.le_log2 hpos, show c.1 + 7 = 5 + (c.1 + 2) by omega, Nat.pow_add]
      exact Nat.le_trans (Nat.mul_le_mul_right _ (show 2^5 ≤ 32 + c.2 by omega)) h
    rcases Nat.lt_or_eq_of_le hlog with hlt | heq
    · left
      show c.1 < n.log2 - 7
      omega
    · right
      refine ⟨by show c.1 = n.log2 - 7; omega, ?_⟩
      have hslice : 32 + c.2 ≤ n / 2^(n.log2 - 5) := by
        rw [Nat.le_div_iff_mul_le (Nat.two_pow_pos _), show n.log2 - 5 = c.1 + 2 by omega]
        exact h
      show c.2 ≤ n / 2^(n.log2 - 5) - 32
      omega

/-- The sizes of a class and of all later ones are those from its start on. -/
theorem classLe_iff {c : Nat × Nat} {n : Nat} (hc : c.2 < 32) : ClassLe c (sizeClass n) ↔ classMin c ≤ n := by
  refine ⟨?_, classLe_sizeClass hc⟩
  intro hle
  exact Nat.le_trans (classMin_mono hc hle) (classMin_sizeClass_le n)

/-- The class a search starts with has no size below the request. -/
theorem le_classMin_searchClass {n : Nat} (h : n % 8 = 0) : n ≤ classMin (searchClass n) := by
  rw [searchClass]
  split
  · next hbig =>
    have hunit : 0 < 2^(n.log2 - 5) := Nat.two_pow_pos _
    generalize hr : n + (2^(n.log2 - 5) - 1) = r
    have hrbig : 256 ≤ r := by omega
    obtain ⟨hlow, hhigh, height⟩ := log2_slice hrbig
    have hnpos : n ≠ 0 := by omega
    have hrpos : r ≠ 0 := by omega
    have hlog : n.log2 ≤ r.log2 := by
      rw [Nat.le_log2 hrpos]
      exact Nat.le_trans (Nat.log2_self_le hnpos) (by omega)
    have hmin : classMin (sizeClass r) = r / 2^(r.log2 - 5) * 2^(r.log2 - 5) := by
      rw [sizeClass, if_neg (by omega), classMin, if_neg (by show r.log2 - 7 ≠ 0; omega)]
      show (32 + (r / 2^(r.log2 - 5) - 32)) * 2^(r.log2 - 7 + 2) = _
      rw [show 32 + (r / 2^(r.log2 - 5) - 32) = r / 2^(r.log2 - 5) by omega, show r.log2 - 7 + 2 = r.log2 - 5 by omega]
    rw [hmin]
    rcases Nat.lt_or_eq_of_le hlog with hlt | heq
    · -- the request was rounded to the next power of two, or above it
      have hnext : n < 2^(n.log2 + 1) := Nat.lt_log2_self
      have hpow : 2^(n.log2 + 1) ≤ 2^r.log2 := Nat.pow_le_pow_right (by decide) hlt
      have hbase : 32 * 2^(r.log2 - 5) = 2^r.log2 := by
        rw [show 32 = 2^5 from rfl, ← Nat.pow_add, show 5 + (r.log2 - 5) = r.log2 by omega]
      have := Nat.mul_le_mul_right (2^(r.log2 - 5)) hlow
      omega
    · -- rounding up to a multiple
      rw [← heq]
      have hdiv := Nat.lt_div_mul_add (a := r) hunit
      omega
  · next hsmall =>
    rw [sizeClass, if_pos (by omega)]
    show n ≤ 8 * (n / 8)
    omega

/-- Every block in the class where the search for a request starts, and in any
    later class, is large enough for it; and every block of at least the rounded
    size is in one of them. -/
theorem searchClass_le_iff {n k : Nat} : ClassLe (searchClass n) (sizeClass k) ↔ classMin (searchClass n) ≤ k := by
  apply classLe_iff
  rw [searchClass]
  split
  · exact sizeClass_snd_lt _
  · exact sizeClass_snd_lt _

theorem searchClass_snd_lt (n : Nat) : (searchClass n).2 < 32 := by
  rw [searchClass]
  split
  · exact sizeClass_snd_lt _
  · exact sizeClass_snd_lt _

/-- What rounding a request up to its class costs: less than a 32nd of it. -/
theorem classMin_searchClass_lt {n : Nat} (h : 0 < n) : classMin (searchClass n) < n + n / 32 + 1 := by
  rw [searchClass]
  split
  · next hbig =>
    have hle := classMin_sizeClass_le (n + (2^(n.log2 - 5) - 1))
    have hunit : 2^(n.log2 - 5) ≤ n / 32 := by
      have height : 8 ≤ n.log2 := (Nat.le_log2 (by omega)).mpr hbig
      rw [Nat.le_div_iff_mul_le (by decide), show 32 = 2^5 from rfl, ← Nat.pow_add,
        show n.log2 - 5 + 5 = n.log2 by omega]
      exact Nat.log2_self_le (by omega)
    have hpos : 0 < 2^(n.log2 - 5) := Nat.two_pow_pos _
    omega
  · have := classMin_sizeClass_le n
    omega

end Qnixx.Tlsf
