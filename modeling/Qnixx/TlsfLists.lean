import Mathlib.Data.List.Pairwise
import Qnixx.Lib.Dlist
import Qnixx.Tlsf

/- The free lists of the allocator. For every class there is a doubly linked
   list of blocks, threaded through the blocks themselves; two levels of
   bitmaps say which lists are not empty. `Listed t es` says that the lists of
   `t` hold just the entries `es`, each with its address and its size, and each
   under the class of its size. -/
namespace Qnixx.Tlsf
open ByteMem

/-- The links of a block, as numbers. -/
def next (m : Mem) (x : Nat) : Nat := (nextFree m (BitVec.ofNat 64 x)).toNat

def prev (m : Mem) (x : Nat) : Nat := (prevFree m (BitVec.ofNat 64 x)).toNat

/-- The two link words of a block. -/
def LinkByte (x : Nat) (y : Nat) : Prop := x + 16 ≤ y ∧ y < x + 32

abbrev Entry := Nat × Nat

/-- The lists as lists: `ls fl sl` are the blocks of a class, in order. -/
structure Lists (t : Control) (es : List Entry) (ls : Nat → Nat → List Nat) : Prop where
  heads : ∀ fl < flIndexCount, ∀ sl < slIndexCount,
    t.blocks fl sl = BitVec.ofNat 64 ((ls fl sl).headD t.blockNull.toNat)
  links : ∀ fl < flIndexCount, ∀ sl < slIndexCount,
    Dlist.Linked (next t.mem) (prev t.mem) t.blockNull.toNat t.blockNull.toNat (ls fl sl)
  distinct : ∀ fl < flIndexCount, ∀ sl < slIndexCount, (ls fl sl).Nodup
  mem : ∀ fl < flIndexCount, ∀ sl < slIndexCount, ∀ x, x ∈ ls fl sl ↔ ∃ n, (x, n) ∈ es ∧ sizeClass n = (fl, sl)
  slBit : ∀ fl < flIndexCount, ∀ sl < slIndexCount, (t.slBitmap fl).getLsbD sl = true ↔ ls fl sl ≠ []
  flBit : ∀ fl < 32, t.flBitmap.getLsbD fl = true ↔ fl < flIndexCount ∧ t.slBitmap fl ≠ 0

def Listed (t : Control) (es : List Entry) : Prop := ∃ ls, Lists t es ls

/-- The link words of the entries and of the null block at `z` are apart, and
    every size has a class. -/
structure Nodes (z : Nat) (es : List Entry) : Prop where
  nullPos : 0 < z
  nullHigh : z + 32 ≤ 2^64
  pos : ∀ e ∈ es, 0 < e.1
  high : ∀ e ∈ es, e.1 + 32 ≤ 2^64
  nullApart : ∀ e ∈ es, z + 16 ≤ e.1 ∨ e.1 + 16 ≤ z
  small : ∀ e ∈ es, e.2 < 2^32
  apart : es.Pairwise (fun e f => e.1 + 16 ≤ f.1 ∨ f.1 + 16 ≤ e.1)

/-- Only which entries there are counts. -/
theorem Listed.congr_mem {t : Control} {es es' : List Entry} (h : Listed t es) (hmem : ∀ e, e ∈ es ↔ e ∈ es') :
    Listed t es' := by
  obtain ⟨ls, hls⟩ := h
  refine ⟨ls, { hls with mem := ?_ }⟩
  intro fl hfl sl hsl x
  rw [hls.mem fl hfl sl hsl]
  simp only [hmem]

section
variable {t : Control} {es : List Entry} {ls : Nat → Nat → List Nat}

/-- The link words of a node where the memory agrees. -/
theorem next_agree {m m' : Mem} {x : Nat} (hx : x + 32 ≤ 2^64) (h : Agree m m' (x + 16) (x + 32)) :
    next m' x = next m x ∧ prev m' x = prev m x := by
  have hnext : nextFree m' (BitVec.ofNat 64 x) = nextFree m (BitVec.ofNat 64 x) := by
    rw [nextFree, nextFree, show (16 : BitVec 64) = BitVec.ofNat 64 16 from rfl, ← BitVec.ofNat_add]
    exact load64_agree (by omega) (h.mono (by omega) (by omega))
  have hprev : prevFree m' (BitVec.ofNat 64 x) = prevFree m (BitVec.ofNat 64 x) := by
    rw [prevFree, prevFree, show (24 : BitVec 64) = BitVec.ofNat 64 24 from rfl, ← BitVec.ofNat_add]
    exact load64_agree (by omega) (h.mono (by omega) (by omega))
  rw [next, next, prev, prev, hnext, hprev]
  exact ⟨rfl, rfl⟩

/-- The lists survive a change of memory that leaves the links alone. -/
theorem Listed.agree (h : Listed t es) {m : Mem} (hhigh : ∀ e ∈ es, e.1 + 32 ≤ 2^64)
    (hm : ∀ e ∈ es, Agree t.mem m (e.1 + 16) (e.1 + 32)) : Listed { t with mem := m } es := by
  obtain ⟨ls, hls⟩ := h
  refine ⟨ls, { hls with links := ?_ }⟩
  intro fl hfl sl hsl
  have hnodes : ∀ x ∈ ls fl sl, next m x = next t.mem x ∧ prev m x = prev t.mem x := by
    intro x hx
    obtain ⟨n, hn, -⟩ := (hls.mem fl hfl sl hsl x).mp hx
    exact next_agree (hhigh _ hn) (hm _ hn)
  exact (hls.links fl hfl sl hsl).congr (fun x hx => (hnodes x hx).1) (fun x hx => (hnodes x hx).2)

/-! Searching. -/

/-- The bits of a map from a place on. -/
theorem getLsbD_from (w : BitVec 32) (k : Nat) {i : Nat} (hi : i < 32) :
    (w &&& (~~~0#32 <<< k)).getLsbD i = true ↔ k ≤ i ∧ w.getLsbD i = true := by
  have hones : ∀ j < 32, (~~~0#32).getLsbD j = true := by decide
  rw [BitVec.getLsbD_and, BitVec.getLsbD_shiftLeft, hones (i - k) (by omega), Bool.and_eq_true, Bool.and_true,
    Bool.and_eq_true, decide_eq_true_eq, Bool.not_eq_true', decide_eq_false_iff_not, Nat.not_lt]
  exact ⟨fun h => ⟨h.2.2, h.1⟩, fun h => ⟨h.2, hi, h.1⟩⟩

/-- No bit from the place on. -/
theorem lt_of_masked {w : BitVec 32} {k : Nat} (h : w &&& (~~~0#32 <<< k) = 0) {i : Nat} (hi : i < 32)
    (hbit : w.getLsbD i = true) : i < k := by
  apply Nat.lt_of_not_le
  intro hle
  have hset := (getLsbD_from w k hi).mpr ⟨hle, hbit⟩
  rw [h] at hset
  simp at hset

/-- A first-level bit and a second-level bit of the maps. -/
theorem Lists.sl_ne_zero (h : Lists t es ls) {fl : Nat} (hfl : fl < flIndexCount) :
    t.slBitmap fl ≠ 0 ↔ ∃ sl < slIndexCount, ls fl sl ≠ [] := by
  refine ⟨?_, ?_⟩
  · intro hne
    obtain ⟨i, -, hi, hbit, -⟩ := tlsfFfs_spec hne
    exact ⟨i, hi, (h.slBit fl hfl i hi).mp hbit⟩
  · rintro ⟨sl, hsl, hne⟩ hzero
    have := (h.slBit fl hfl sl hsl).mpr hne
    rw [hzero] at this
    simp at this

/-- The class of every entry has a list that is not empty. -/
theorem Lists.ne_nil (h : Lists t es ls) {e : Entry} (he : e ∈ es) {fl sl : Nat} (hfl : fl < flIndexCount)
    (hsl : sl < slIndexCount) (hclass : sizeClass e.2 = (fl, sl)) : ls fl sl ≠ [] := by
  have hmem : e.1 ∈ ls fl sl := (h.mem fl hfl sl hsl e.1).mpr ⟨e.2, he, hclass⟩
  exact List.ne_nil_of_mem hmem

/-- The first block of a list that is not empty is an entry of its class. -/
theorem Lists.head_entry (h : Lists t es ls) {fl sl : Nat} (hfl : fl < flIndexCount) (hsl : sl < slIndexCount)
    (hne : ls fl sl ≠ []) : ∃ e ∈ es, t.blocks fl sl = BitVec.ofNat 64 e.1 ∧ sizeClass e.2 = (fl, sl) := by
  obtain ⟨x, xs, heq⟩ := List.exists_cons_of_ne_nil hne
  obtain ⟨n, hn, hclass⟩ := (h.mem fl hfl sl hsl x).mp (by rw [heq]; exact List.mem_cons_self)
  refine ⟨(x, n), hn, ?_, hclass⟩
  rw [h.heads fl hfl sl hsl, heq]
  rfl

end

/-- What a search returns: NULL when there is no entry in the class or a later
    one; else the first block of the first such list. -/
def Found (es : List Entry) (c : Nat × Nat) (r : BitVec 64 × Nat × Nat) : Prop :=
  (r.1 = 0 ∧ ∀ e ∈ es, ¬ ClassLe c (sizeClass e.2)) ∨
    ∃ e ∈ es, r.1 = BitVec.ofNat 64 e.1 ∧ sizeClass e.2 = r.2 ∧ ClassLe c r.2 ∧
      ∀ f ∈ es, ClassLe c (sizeClass f.2) → ClassLe r.2 (sizeClass f.2)

theorem searchSuitableBlock_found {t : Control} {es : List Entry} (h : Listed t es) (hsmall : ∀ e ∈ es, e.2 < 2^32)
    {fl sl : Nat} (hfl : fl < flIndexCount) (hsl : sl < slIndexCount) :
    ∃ r, searchSuitableBlock t fl sl = some r ∧ Found es (fl, sl) r := by
  obtain ⟨ls, hls⟩ := h
  have hin : inLists fl sl = some () := by
    rw [inLists, tlsfAssert, if_pos (by simp [hfl, hsl])]
  -- every entry has its class in range
  have hclass : ∀ e ∈ es, (sizeClass e.2).1 < flIndexCount ∧ (sizeClass e.2).2 < slIndexCount :=
    fun e he => ⟨sizeClass_fst_lt (hsmall e he), sizeClass_snd_lt e.2⟩
  have hbit : ∀ e ∈ es, (t.slBitmap (sizeClass e.2).1).getLsbD (sizeClass e.2).2 = true := by
    intro e he
    obtain ⟨h1, h2⟩ := hclass e he
    exact (hls.slBit _ h1 _ h2).mpr (hls.ne_nil he h1 h2 rfl)
  have hflBit : ∀ e ∈ es, (sizeClass e.2).1 < 32 ∧ t.flBitmap.getLsbD (sizeClass e.2).1 = true := by
    intro e he
    obtain ⟨h1, h2⟩ := hclass e he
    have h32 : (sizeClass e.2).1 < 32 := Nat.lt_trans h1 (by decide)
    exact ⟨h32, (hls.flBit _ h32).mpr ⟨h1, (hls.sl_ne_zero h1).mpr ⟨_, h2, hls.ne_nil he h1 h2 rfl⟩⟩⟩
  rw [searchSuitableBlock, hin]
  simp only [Option.bind_eq_bind, Option.bind_some]
  by_cases hslMap : t.slBitmap fl &&& (~~~0#32 <<< sl) = 0
  · rw [if_pos hslMap]
    -- no list of the first level, from `sl` on
    have hnone : ∀ e ∈ es, (sizeClass e.2).1 = fl → (sizeClass e.2).2 < sl := by
      intro e he heq
      exact lt_of_masked hslMap (hclass e he).2 (heq ▸ hbit e he)
    by_cases hflMap : t.flBitmap &&& (~~~0#32 <<< (fl + 1)) = 0
    · rw [if_pos hflMap]
      refine ⟨_, rfl, .inl ⟨rfl, ?_⟩⟩
      intro e he hle
      rcases hle with hlt | ⟨heq, hle⟩
      · have hbelow := lt_of_masked hflMap (hflBit e he).1 (hflBit e he).2
        have hlt' : fl < (sizeClass e.2).1 := hlt
        omega
      · have := hnone e he heq.symm
        omega
    · rw [if_neg hflMap]
      obtain ⟨i, hffs, hi, hibit, hilow⟩ := tlsfFfs_spec hflMap
      obtain ⟨hafter, hset⟩ := (getLsbD_from _ _ hi).mp hibit
      obtain ⟨hfli, hine⟩ := (hls.flBit i hi).mp hset
      obtain ⟨j, hffs', hj, hjbit, hjlow⟩ := tlsfFfs_spec hine
      have hin' : inLists i 0 = some () := by
        rw [inLists, tlsfAssert, if_pos (by simp [hfli, slIndexCount])]
      have hassert : tlsfAssert (t.slBitmap i != 0) = some () := by
        rw [tlsfAssert, if_pos (bne_iff_ne.mpr hine)]
      rw [hffs, Int.toNat_natCast, hin']
      simp only [Option.bind_some]
      rw [hassert, hffs', Int.toNat_natCast]
      refine ⟨_, rfl, .inr ?_⟩
      obtain ⟨e, he, hblock, hec⟩ := hls.head_entry hfli hj ((hls.slBit i hfli j hj).mp hjbit)
      refine ⟨e, he, hblock, hec, .inl hafter, ?_⟩
      -- the entries from the class on are in a later list of the first level
      intro f hf hle
      have hlt : fl < (sizeClass f.2).1 := by
        rcases hle with hlt | ⟨heq, hle⟩
        · exact hlt
        · have := hnone f hf heq.symm
          have hle' : sl ≤ (sizeClass f.2).2 := hle
          omega
      have hge : i ≤ (sizeClass f.2).1 := by
        apply Nat.le_of_not_lt
        intro hbelow
        have hbit := (getLsbD_from t.flBitmap (fl + 1) (hflBit f hf).1).mpr ⟨hlt, (hflBit f hf).2⟩
        rw [hilow _ hbelow] at hbit
        cases hbit
      rcases Nat.lt_or_eq_of_le hge with hlt' | heq
      · exact .inl hlt'
      · refine .inr ⟨heq, ?_⟩
        apply Nat.le_of_not_lt
        intro hbelow
        have hzero := hjlow _ hbelow
        have hset := hbit f hf
        rw [← heq, hzero] at hset
        cases hset
  · rw [if_neg hslMap]
    obtain ⟨j, hffs, hj, hjbit, hjlow⟩ := tlsfFfs_spec hslMap
    obtain ⟨hafter, hset⟩ := (getLsbD_from _ _ hj).mp hjbit
    rw [hffs, Int.toNat_natCast]
    refine ⟨_, rfl, .inr ?_⟩
    obtain ⟨e, he, hblock, hec⟩ := hls.head_entry hfl hj ((hls.slBit fl hfl j hj).mp hset)
    refine ⟨e, he, hblock, hec, .inr ⟨rfl, hafter⟩, ?_⟩
    intro f hf hle
    rcases hle with hlt | ⟨heq, hle⟩
    · exact .inl hlt
    · refine .inr ⟨heq, ?_⟩
      apply Nat.le_of_not_lt
      intro hbelow
      have heq' : (sizeClass f.2).1 = fl := heq.symm
      have hbit := (getLsbD_from (t.slBitmap fl) sl (hclass f hf).2).mpr ⟨hle, heq' ▸ hbit f hf⟩
      rw [hjlow _ hbelow] at hbit
      cases hbit

/-! Writing links. -/

section
variable {m : Mem} {x y v : Nat}

/-- A link that is stored is read back, and no other link changes. -/
theorem next_setNextFree (hx : x + 32 ≤ 2^64) (hv : v < 2^64) (hy : y + 32 ≤ 2^64)
    (hapart : y = x ∨ y + 16 ≤ x ∨ x + 16 ≤ y) :
    next (setNextFree m (BitVec.ofNat 64 x) (BitVec.ofNat 64 v)) y = Function.update (next m) x v y := by
  rw [next, nextFree, setNextFree, show (16 : BitVec 64) = BitVec.ofNat 64 16 from rfl, ← BitVec.ofNat_add,
    ← BitVec.ofNat_add]
  rcases hapart with rfl | hapart
  · rw [load64_store64, Function.update_self, BitVec.toNat_ofNat, Nat.mod_eq_of_lt hv]
  · rw [Function.update_of_ne (by omega), load64_agree (m := m) (by omega) (agree_store64 m _ (by omega) (by omega)),
      BitVec.ofNat_add]
    rfl

theorem prev_setNextFree (hx : x + 32 ≤ 2^64) (hy : y + 32 ≤ 2^64) (hapart : y = x ∨ y + 16 ≤ x ∨ x + 16 ≤ y)
    (w : BitVec 64) : prev (setNextFree m (BitVec.ofNat 64 x) w) y = prev m y := by
  rw [prev, prev, prevFree, prevFree, setNextFree, show (16 : BitVec 64) = BitVec.ofNat 64 16 from rfl,
    show (24 : BitVec 64) = BitVec.ofNat 64 24 from rfl, ← BitVec.ofNat_add, ← BitVec.ofNat_add,
    load64_agree (m := m) (by omega) (agree_store64 m _ (by omega) (by omega))]

theorem prev_setPrevFree (hx : x + 32 ≤ 2^64) (hv : v < 2^64) (hy : y + 32 ≤ 2^64)
    (hapart : y = x ∨ y + 16 ≤ x ∨ x + 16 ≤ y) :
    prev (setPrevFree m (BitVec.ofNat 64 x) (BitVec.ofNat 64 v)) y = Function.update (prev m) x v y := by
  rw [prev, prevFree, setPrevFree, show (24 : BitVec 64) = BitVec.ofNat 64 24 from rfl, ← BitVec.ofNat_add,
    ← BitVec.ofNat_add]
  rcases hapart with rfl | hapart
  · rw [load64_store64, Function.update_self, BitVec.toNat_ofNat, Nat.mod_eq_of_lt hv]
  · rw [Function.update_of_ne (by omega), load64_agree (m := m) (by omega) (agree_store64 m _ (by omega) (by omega)),
      BitVec.ofNat_add]
    rfl

theorem next_setPrevFree (hx : x + 32 ≤ 2^64) (hy : y + 32 ≤ 2^64) (hapart : y = x ∨ y + 16 ≤ x ∨ x + 16 ≤ y)
    (w : BitVec 64) : next (setPrevFree m (BitVec.ofNat 64 x) w) y = next m y := by
  rw [next, next, nextFree, nextFree, setPrevFree, show (16 : BitVec 64) = BitVec.ofNat 64 16 from rfl,
    show (24 : BitVec 64) = BitVec.ofNat 64 24 from rfl, ← BitVec.ofNat_add, ← BitVec.ofNat_add,
    load64_agree (m := m) (by omega) (agree_store64 m _ (by omega) (by omega))]

/-- Storing a link changes only the node's link words. -/
theorem setNextFree_outside (hx : x + 32 ≤ 2^64) (w : BitVec 64) {a : BitVec 64} (ha : ¬ LinkByte x a.toNat) :
    setNextFree m (BitVec.ofNat 64 x) w a = m a := by
  rw [LinkByte] at ha
  rw [setNextFree, show (16 : BitVec 64) = BitVec.ofNat 64 16 from rfl, ← BitVec.ofNat_add]
  exact agree_store64 m w (by omega) (by omega) a (Nat.le_refl _) (Nat.lt_succ_self _)

theorem setPrevFree_outside (hx : x + 32 ≤ 2^64) (w : BitVec 64) {a : BitVec 64} (ha : ¬ LinkByte x a.toNat) :
    setPrevFree m (BitVec.ofNat 64 x) w a = m a := by
  rw [LinkByte] at ha
  rw [setPrevFree, show (24 : BitVec 64) = BitVec.ofNat 64 24 from rfl, ← BitVec.ofNat_add]
  exact agree_store64 m w (by omega) (by omega) a (Nat.le_refl _) (Nat.lt_succ_self _)

end

/-- The null block, or the block of an entry. -/
def IsNode (z : Nat) (es : List Entry) (x : Nat) : Prop := x = z ∨ ∃ n, (x, n) ∈ es

section
variable {z : Nat} {es : List Entry} {x y : Nat}

theorem Nodes.node_high (h : Nodes z es) (hx : IsNode z es x) : x + 32 ≤ 2^64 := by
  rcases hx with rfl | ⟨n, hn⟩
  · exact h.nullHigh
  · exact h.high _ hn

theorem Nodes.node_pos (h : Nodes z es) (hx : IsNode z es x) : 0 < x := by
  rcases hx with rfl | ⟨n, hn⟩
  · exact h.nullPos
  · exact h.pos _ hn

/-- Two entries are one or have their links apart. -/
theorem Nodes.entries_apart (h : Nodes z es) {e f : Entry} (he : e ∈ es) (hf : f ∈ es) :
    e = f ∨ e.1 + 16 ≤ f.1 ∨ f.1 + 16 ≤ e.1 := by
  have hpair := h.apart
  by_cases heq : e = f
  · exact .inl heq
  · right
    have hsymm : Std.Symm (fun e f : Entry => e.1 + 16 ≤ f.1 ∨ f.1 + 16 ≤ e.1) := ⟨fun _ _ => Or.symm⟩
    exact hpair.forall he hf heq

/-- An address has one entry. -/
theorem Nodes.entry_unique (h : Nodes z es) {n k : Nat} (hn : (x, n) ∈ es) (hk : (x, k) ∈ es) : n = k := by
  rcases h.entries_apart hn hk with heq | hapart
  · exact (Prod.mk.inj heq).2
  · have hapart : x + 16 ≤ x ∨ x + 16 ≤ x := hapart
    omega

theorem Nodes.node_apart (h : Nodes z es) (hx : IsNode z es x) (hy : IsNode z es y) :
    y = x ∨ y + 16 ≤ x ∨ x + 16 ≤ y := by
  rcases hx with rfl | ⟨n, hn⟩
  · rcases hy with rfl | ⟨k, hk⟩
    · exact .inl rfl
    · have : x + 16 ≤ y ∨ y + 16 ≤ x := h.nullApart _ hk
      omega
  · rcases hy with rfl | ⟨k, hk⟩
    · have : y + 16 ≤ x ∨ x + 16 ≤ y := h.nullApart _ hn
      omega
    · rcases h.entries_apart hn hk with heq | hapart
      · exact .inl (Prod.mk.inj heq).1.symm
      · have hapart : x + 16 ≤ y ∨ y + 16 ≤ x := hapart
        omega

theorem Nodes.null_not_entry (h : Nodes z es) (n : Nat) : (z, n) ∉ es := by
  intro hn
  have : z + 16 ≤ z ∨ z + 16 ≤ z := h.nullApart _ hn
  omega

end

/-! Taking a block out. -/

theorem getLsbD_bit {k : Nat} (i : Nat) (hi : i < 32) : (1#32 <<< k).getLsbD i = decide (i = k) := by
  rw [BitVec.getLsbD_shiftLeft]
  by_cases heq : i = k
  · rw [heq] at hi ⊢
    simp [hi]
  · by_cases hlt : i < k
    · simp [heq, hlt]
    · simp [heq, hi, show i - k ≠ 0 by omega]

theorem getLsbD_clear (w : BitVec 32) (k : Nat) {i : Nat} (hi : i < 32) :
    (w &&& ~~~(1#32 <<< k)).getLsbD i = true ↔ w.getLsbD i = true ∧ i ≠ k := by
  rw [BitVec.getLsbD_and, BitVec.getLsbD_not, getLsbD_bit i hi]
  simp [hi]

theorem getLsbD_set (w : BitVec 32) (k : Nat) {i : Nat} (hi : i < 32) :
    (w ||| (1#32 <<< k)).getLsbD i = true ↔ w.getLsbD i = true ∨ i = k := by
  rw [BitVec.getLsbD_or, getLsbD_bit i hi]
  simp

/-- The lists with one of them changed. -/
def setList (ls : Nat → Nat → List Nat) (fl sl : Nat) (l : List Nat) : Nat → Nat → List Nat :=
  fun fl' sl' => if fl' = fl ∧ sl' = sl then l else ls fl' sl'

theorem setList_self (ls : Nat → Nat → List Nat) (fl sl : Nat) (l : List Nat) : setList ls fl sl l fl sl = l :=
  if_pos ⟨rfl, rfl⟩

theorem setList_of_ne {ls : Nat → Nat → List Nat} {fl sl fl' sl' : Nat} (l : List Nat) (h : ¬ (fl' = fl ∧ sl' = sl)) :
    setList ls fl sl l fl' sl' = ls fl' sl' :=
  if_neg h

/-- What both edits share: the control structure keeps its null block, and the
    memory changes only in the links of nodes. -/
structure LinksOnly (t t' : Control) (es : List Entry) : Prop where
  null : t'.blockNull = t.blockNull
  mem : ∀ a : BitVec 64, (∀ x, IsNode t.blockNull.toNat es x → ¬ LinkByte x a.toNat) → t'.mem a = t.mem a

theorem inLists_eq {fl sl : Nat} (hfl : fl < flIndexCount) (hsl : sl < slIndexCount) : inLists fl sl = some () := by
  rw [inLists, tlsfAssert, if_pos (by simp [hfl, hsl])]

theorem ofNat_ne_zero {a : Nat} (hpos : 0 < a) (hlt : a < 2^64) : BitVec.ofNat 64 a ≠ 0 := by
  intro heq
  have := congrArg BitVec.toNat heq
  rw [BitVec.toNat_ofNat, Nat.mod_eq_of_lt hlt] at this
  exact absurd this (by show a ≠ 0; omega)

theorem ofNat_inj {a b : Nat} (ha : a < 2^64) (hb : b < 2^64) : BitVec.ofNat 64 a = BitVec.ofNat 64 b ↔ a = b := by
  refine ⟨?_, fun h => h ▸ rfl⟩
  intro heq
  have := congrArg BitVec.toNat heq
  rwa [BitVec.toNat_ofNat, BitVec.toNat_ofNat, Nat.mod_eq_of_lt ha, Nat.mod_eq_of_lt hb] at this

section
variable {t : Control} {es : List Entry} {ls : Nat → Nat → List Nat} {fl sl x : Nat}

theorem Lists.isNode (h : Lists t es ls) (hfl : fl < flIndexCount) (hsl : sl < slIndexCount) (hx : x ∈ ls fl sl) :
    IsNode t.blockNull.toNat es x := by
  obtain ⟨n, hn, -⟩ := (h.mem fl hfl sl hsl x).mp hx
  exact .inr ⟨n, hn⟩

/-- A block is in one list. -/
theorem Lists.unique (h : Lists t es ls) (hnodes : Nodes t.blockNull.toNat es) {fl' sl' : Nat} (hfl : fl < flIndexCount)
    (hsl : sl < slIndexCount) (hfl' : fl' < flIndexCount) (hsl' : sl' < slIndexCount) (hx : x ∈ ls fl sl)
    (hx' : x ∈ ls fl' sl') : fl' = fl ∧ sl' = sl := by
  obtain ⟨n, hn, hclass⟩ := (h.mem fl hfl sl hsl x).mp hx
  obtain ⟨k, hk, hclass'⟩ := (h.mem fl' hfl' sl' hsl' x).mp hx'
  obtain rfl := hnodes.entry_unique hn hk
  exact Prod.mk.inj (hclass'.symm.trans hclass)

theorem Lists.null_not_mem (h : Lists t es ls) (hnodes : Nodes t.blockNull.toNat es) (hfl : fl < flIndexCount)
    (hsl : sl < slIndexCount) : t.blockNull.toNat ∉ ls fl sl := by
  intro hmem
  obtain ⟨n, hn, -⟩ := (h.mem fl hfl sl hsl _).mp hmem
  exact hnodes.null_not_entry n hn

/-- The memory after the two stores that take a block out of its list. -/
def unlinked (m : Mem) (x : Nat) : Mem :=
  setNextFree (setPrevFree m (BitVec.ofNat 64 (next m x)) (BitVec.ofNat 64 (prev m x)))
    (BitVec.ofNat 64 (prev m x)) (BitVec.ofNat 64 (next m x))

/-- Where a block is in its list, and what its links are. -/
theorem Lists.split (h : Lists t es ls) (hfl : fl < flIndexCount) (hsl : sl < slIndexCount) (hx : x ∈ ls fl sl) :
    ∃ xs ys, ls fl sl = xs ++ x :: ys ∧ prev t.mem x = Dlist.before t.blockNull.toNat xs ∧
      next t.mem x = ys.headD t.blockNull.toNat ∧ IsNode t.blockNull.toNat es (prev t.mem x) ∧
      IsNode t.blockNull.toNat es (next t.mem x) := by
  obtain ⟨xs, ys, heq⟩ := List.append_of_mem hx
  have hlinks := h.links fl hfl sl hsl
  rw [heq] at hlinks
  obtain ⟨-, hp, hn, -⟩ := Dlist.linked_append.mp hlinks
  refine ⟨xs, ys, heq, hp, hn, ?_, ?_⟩
  · rw [hp]
    rcases Dlist.before_mem t.blockNull.toNat xs with ⟨hz, -⟩ | hmem
    · exact .inl hz
    · exact h.isNode hfl hsl (by rw [heq]; exact List.mem_append_left _ hmem)
  · rw [hn]
    rcases Dlist.headD_mem t.blockNull.toNat ys with ⟨hz, -⟩ | hmem
    · exact .inl hz
    · exact h.isNode hfl hsl (by rw [heq]; exact List.mem_append_right _ (List.mem_cons_of_mem x hmem))

theorem next_unlinked {m : Mem} {z y : Nat} (hnodes : Nodes z es) (hp : IsNode z es (prev m x))
    (hn : IsNode z es (next m x)) (hy : IsNode z es y) :
    next (unlinked m x) y = Function.update (next m) (prev m x) (next m x) y ∧
      prev (unlinked m x) y = Function.update (prev m) (next m x) (prev m x) y := by
  have hph := hnodes.node_high hp
  have hnh := hnodes.node_high hn
  have hyh := hnodes.node_high hy
  have hnext : ∀ w, IsNode z es w → next (setPrevFree m (BitVec.ofNat 64 (next m x)) (BitVec.ofNat 64 (prev m x))) w =
      next m w :=
    fun w hw => next_setPrevFree hnh (hnodes.node_high hw) (hnodes.node_apart hn hw) _
  refine ⟨?_, ?_⟩
  · rw [unlinked, next_setNextFree hph (by omega) hyh (hnodes.node_apart hp hy)]
    by_cases heq : y = prev m x
    · rw [heq, Function.update_self, Function.update_self]
    · rw [Function.update_of_ne heq, Function.update_of_ne heq, hnext y hy]
  · rw [unlinked, prev_setNextFree hph hyh (hnodes.node_apart hp hy),
      prev_setPrevFree hnh (by omega) hyh (hnodes.node_apart hn hy)]

theorem unlinked_outside {m : Mem} {z : Nat} (hnodes : Nodes z es) (hp : IsNode z es (prev m x))
    (hn : IsNode z es (next m x)) {a : BitVec 64} (ha : ∀ y, IsNode z es y → ¬ LinkByte y a.toNat) :
    unlinked m x a = m a := by
  rw [unlinked, setNextFree_outside (hnodes.node_high hp) _ (ha _ hp),
    setPrevFree_outside (hnodes.node_high hn) _ (ha _ hn)]

/-- The list without the block. -/
theorem mem_without {xs ys : List Nat} (h : (xs ++ x :: ys).Nodup) (y : Nat) :
    y ∈ xs ++ ys ↔ y ∈ xs ++ x :: ys ∧ y ≠ x := by
  have hx : x ∉ xs ++ ys := (List.nodup_cons.mp (List.perm_middle.nodup_iff.mp h)).1
  simp only [List.mem_append, List.mem_cons] at hx ⊢
  refine ⟨?_, ?_⟩
  · intro hy
    refine ⟨by tauto, ?_⟩
    rintro rfl
    exact hx hy
  · rintro ⟨hy, hne⟩
    tauto

/-- After the stores the list is linked without the block, and the others as
    before. -/
theorem Lists.unlinked_links (h : Lists t es ls) (hnodes : Nodes t.blockNull.toNat es) (hfl : fl < flIndexCount)
    (hsl : sl < slIndexCount) {xs ys : List Nat} (heq : ls fl sl = xs ++ x :: ys)
    (hp : IsNode t.blockNull.toNat es (prev t.mem x)) (hn : IsNode t.blockNull.toNat es (next t.mem x))
    {fl' sl' : Nat} (hfl' : fl' < flIndexCount) (hsl' : sl' < slIndexCount) :
    Dlist.Linked (next (unlinked t.mem x)) (prev (unlinked t.mem x)) t.blockNull.toNat t.blockNull.toNat
      (setList ls fl sl (xs ++ ys) fl' sl') := by
  have hlinks := h.links fl hfl sl hsl
  have hdistinct := h.distinct fl hfl sl hsl
  have hnull := h.null_not_mem hnodes hfl hsl
  have hmem : ∀ y ∈ xs ++ ys, IsNode t.blockNull.toNat es y := by
    intro y hy
    apply h.isNode hfl hsl
    rw [heq]
    simp only [List.mem_append, List.mem_cons] at hy ⊢
    tauto
  rw [heq] at hlinks hdistinct hnull
  by_cases hsame : fl' = fl ∧ sl' = sl
  · rw [hsame.1, hsame.2, setList_self]
    exact (hlinks.unlink hdistinct hnull).congr (fun y hy => (next_unlinked hnodes hp hn (hmem y hy)).1)
      (fun y hy => (next_unlinked hnodes hp hn (hmem y hy)).2)
  · rw [setList_of_ne _ hsame]
    -- the neighbours of the block are not in another list
    have hother : ∀ y ∈ ls fl' sl', y ∉ ls fl sl := fun y hy' hy =>
      hsame (h.unique hnodes hfl hsl hfl' hsl' hy hy')
    have hnot : ∀ w, w = t.blockNull.toNat ∨ w ∈ ls fl sl → ∀ y ∈ ls fl' sl', y ≠ w := by
      rintro w (rfl | hw) y hy rfl
      · exact h.null_not_mem hnodes hfl' hsl' hy
      · exact hother y hy hw
    obtain ⟨-, hpv, hnv, -⟩ := Dlist.linked_append.mp hlinks
    have hpcase : prev t.mem x = t.blockNull.toNat ∨ prev t.mem x ∈ ls fl sl := by
      rw [hpv, heq]
      rcases Dlist.before_mem t.blockNull.toNat xs with ⟨hz, -⟩ | hw
      · exact .inl hz
      · exact .inr (List.mem_append_left _ hw)
    have hncase : next t.mem x = t.blockNull.toNat ∨ next t.mem x ∈ ls fl sl := by
      rw [hnv, heq]
      rcases Dlist.headD_mem t.blockNull.toNat ys with ⟨hz, -⟩ | hw
      · exact .inl hz
      · exact .inr (List.mem_append_right _ (List.mem_cons_of_mem x hw))
    apply (h.links fl' hfl' sl' hsl').congr
    · intro y hy
      rw [(next_unlinked hnodes hp hn (h.isNode hfl' hsl' hy)).1, Function.update_of_ne (hnot _ hpcase y hy)]
    · intro y hy
      rw [(next_unlinked hnodes hp hn (h.isNode hfl' hsl' hy)).2, Function.update_of_ne (hnot _ hncase y hy)]

/-- The control structure after a block was taken out, whatever the maps and the
    heads are, as long as they fit the lists. -/
theorem Lists.remove (h : Lists t es ls) (hnodes : Nodes t.blockNull.toNat es) (hfl : fl < flIndexCount)
    (hsl : sl < slIndexCount) {xs ys : List Nat} (heq : ls fl sl = xs ++ x :: ys)
    (hp : IsNode t.blockNull.toNat es (prev t.mem x)) (hn : IsNode t.blockNull.toNat es (next t.mem x))
    {es' : List Entry} (hes' : ∀ e, e ∈ es' ↔ e ∈ es ∧ e.1 ≠ x) {t' : Control} (hmem : t'.mem = unlinked t.mem x)
    (hz : t'.blockNull = t.blockNull)
    (hhead : t'.blocks fl sl = BitVec.ofNat 64 ((xs ++ ys).headD t.blockNull.toNat))
    (hheads : ∀ fl' sl', ¬ (fl' = fl ∧ sl' = sl) → t'.blocks fl' sl' = t.blocks fl' sl')
    (hsl' : (t'.slBitmap fl).getLsbD sl = true ↔ xs ++ ys ≠ [])
    (hsls : ∀ fl' < flIndexCount, ∀ sl' < slIndexCount, ¬ (fl' = fl ∧ sl' = sl) →
      (t'.slBitmap fl').getLsbD sl' = (t.slBitmap fl').getLsbD sl')
    (hfls : ∀ fl' < 32, t'.flBitmap.getLsbD fl' = true ↔ fl' < flIndexCount ∧ t'.slBitmap fl' ≠ 0) :
    Lists t' es' (setList ls fl sl (xs ++ ys)) := by
  have hdistinct := h.distinct fl hfl sl hsl
  rw [heq] at hdistinct
  refine ⟨?_, ?_, ?_, ?_, ?_, hfls⟩
  · intro fl' hfl' sl' hsl'
    by_cases hsame : fl' = fl ∧ sl' = sl
    · rw [hsame.1, hsame.2, setList_self, hhead, hz]
    · rw [setList_of_ne _ hsame, hheads fl' sl' hsame, hz, h.heads fl' hfl' sl' hsl']
  · intro fl' hfl' sl' hsl'
    rw [hmem, hz]
    exact h.unlinked_links hnodes hfl hsl heq hp hn hfl' hsl'
  · intro fl' hfl' sl' hsl'
    by_cases hsame : fl' = fl ∧ sl' = sl
    · rw [hsame.1, hsame.2, setList_self]
      exact (List.nodup_cons.mp (List.perm_middle.nodup_iff.mp hdistinct)).2
    · rw [setList_of_ne _ hsame]
      exact h.distinct fl' hfl' sl' hsl'
  · intro fl' hfl' sl' hsl' y
    have hold := h.mem fl' hfl' sl' hsl' y
    have hsplit : y ∈ setList ls fl sl (xs ++ ys) fl' sl' ↔ y ∈ ls fl' sl' ∧ y ≠ x := by
      by_cases hsame : fl' = fl ∧ sl' = sl
      · rw [hsame.1, hsame.2, setList_self, heq, mem_without hdistinct]
      · rw [setList_of_ne _ hsame]
        refine ⟨fun hy => ⟨hy, ?_⟩, fun hy => hy.1⟩
        rintro rfl
        exact hsame (h.unique hnodes hfl hsl hfl' hsl' (by rw [heq]; simp) hy)
    rw [hsplit, hold]
    refine ⟨?_, ?_⟩
    · rintro ⟨⟨k, hk, hclass⟩, hne⟩
      exact ⟨k, (hes' _).mpr ⟨hk, hne⟩, hclass⟩
    · rintro ⟨k, hk, hclass⟩
      obtain ⟨hk, hne⟩ := (hes' _).mp hk
      exact ⟨⟨k, hk, hclass⟩, hne⟩
  · intro fl' hfl' sl' hsl''
    by_cases hsame : fl' = fl ∧ sl' = sl
    · rw [hsame.1, hsame.2, setList_self]
      exact hsl'
    · rw [setList_of_ne _ hsame, hsls fl' hfl' sl' hsl'' hsame]
      exact h.slBit fl' hfl' sl' hsl''

end

/-- `remove_free_block` takes the block out of the lists: none of its assertions
    fails, and nothing changes but the links of listed blocks. -/
theorem removeFreeBlock_listed {t : Control} {es es' : List Entry} {fl sl x n : Nat} (h : Listed t es)
    (hnodes : Nodes t.blockNull.toNat es) (hx : (x, n) ∈ es) (hclass : sizeClass n = (fl, sl))
    (hes' : ∀ e, e ∈ es' ↔ e ∈ es ∧ e.1 ≠ x) :
    ∃ t', removeFreeBlock t (BitVec.ofNat 64 x) fl sl = some t' ∧ Listed t' es' ∧ LinksOnly t t' es := by
  obtain ⟨ls, hls⟩ := h
  have hfl : fl < flIndexCount := by
    have := sizeClass_fst_lt (hnodes.small _ hx)
    rwa [hclass] at this
  have hsl : sl < slIndexCount := by
    have := sizeClass_snd_lt n
    rwa [hclass] at this
  have hmem : x ∈ ls fl sl := (hls.mem fl hfl sl hsl x).mpr ⟨n, hx, hclass⟩
  obtain ⟨xs, ys, heq, hpv, hnv, hp, hn⟩ := hls.split hfl hsl hmem
  have hph := hnodes.node_high hp
  have hnh := hnodes.node_high hn
  have hxh := hnodes.high _ hx
  have hprev : prevFree t.mem (BitVec.ofNat 64 x) = BitVec.ofNat 64 (prev t.mem x) := by
    rw [prev, BitVec.ofNat_toNat, BitVec.setWidth_eq]
  have hnext : nextFree t.mem (BitVec.ofNat 64 x) = BitVec.ofNat 64 (next t.mem x) := by
    rw [next, BitVec.ofNat_toNat, BitVec.setWidth_eq]
  have hassert : ∀ y, IsNode t.blockNull.toNat es y → tlsfAssert (BitVec.ofNat 64 y != 0) = some () := by
    intro y hy
    have hyh := hnodes.node_high hy
    rw [tlsfAssert, if_pos (bne_iff_ne.mpr (ofNat_ne_zero (hnodes.node_pos hy) (by omega)))]
  have hdistinct := hls.distinct fl hfl sl hsl
  have hnull := hls.null_not_mem hnodes hfl hsl
  rw [heq] at hdistinct hnull
  -- the head of the list is the block just when nothing is before it
  have hheads := hls.heads fl hfl sl hsl
  have hhead : t.blocks fl sl = BitVec.ofNat 64 x ↔ xs = [] := by
    rw [hheads, heq]
    cases xs with
    | nil => exact ⟨fun _ => rfl, fun _ => rfl⟩
    | cons w xs =>
      refine ⟨?_, fun h => absurd h (List.cons_ne_nil _ _)⟩
      intro hwx
      have hw : IsNode t.blockNull.toNat es w := hls.isNode hfl hsl (by rw [heq]; simp)
      have hwh := hnodes.node_high hw
      have hwx' : w = x := (ofNat_inj (by omega) (by omega)).mp hwx
      rw [hwx', List.cons_append, List.nodup_cons] at hdistinct
      exact absurd (List.mem_append_right xs List.mem_cons_self) hdistinct.1
  have hnz : BitVec.ofNat 64 (next t.mem x) = t.blockNull ↔ ys = [] := by
    rw [hnv]
    cases ys with
    | nil =>
      refine ⟨fun _ => rfl, fun _ => ?_⟩
      show BitVec.ofNat 64 t.blockNull.toNat = t.blockNull
      rw [BitVec.ofNat_toNat, BitVec.setWidth_eq]
    | cons w ys =>
      refine ⟨?_, fun h => absurd h (List.cons_ne_nil _ _)⟩
      intro hw
      have hw' : BitVec.ofNat 64 w = BitVec.ofNat 64 t.blockNull.toNat := by
        rw [BitVec.ofNat_toNat, BitVec.setWidth_eq]
        exact hw
      have hwn : IsNode t.blockNull.toNat es w := hls.isNode hfl hsl (by rw [heq]; simp)
      have hwh := hnodes.node_high hwn
      rw [ofNat_inj (by omega) t.blockNull.isLt] at hw'
      rw [← hw'] at hnull
      exact absurd (by simp) hnull
  have hframe : ∀ {t' : Control}, t'.mem = unlinked t.mem x → t'.blockNull = t.blockNull → LinksOnly t t' es := by
    intro t' hm hz
    refine ⟨hz, ?_⟩
    intro a ha
    rw [hm]
    exact unlinked_outside hnodes hp hn ha
  have hslOwn := hls.slBit fl hfl sl hsl
  have hsl32 : sl < 32 := hsl
  rw [removeFreeBlock, inLists_eq hfl hsl]
  simp only [Option.bind_eq_bind, Option.bind_some, hprev, hnext]
  rw [hassert _ hp, hassert _ hn]
  simp only [Option.bind_some]
  by_cases hfirst : t.blocks fl sl = BitVec.ofNat 64 x
  · rw [if_pos hfirst]
    obtain rfl := hhead.mp hfirst
    by_cases hlast : BitVec.ofNat 64 (next t.mem x) = t.blockNull
    · -- the only block of its list
      rw [if_pos hlast]
      obtain rfl := hnz.mp hlast
      refine ⟨_, rfl, ⟨_, hls.remove hnodes hfl hsl heq hp hn hes' rfl rfl ?_ ?_ ?_ ?_ ?_⟩, hframe rfl rfl⟩
      · simp only [Function.update_self]
        rw [hnv]
        rfl
      · intro fl' sl' hne
        by_cases h1 : fl' = fl
        · have h2 : sl' ≠ sl := fun h2 => hne ⟨h1, h2⟩
          simp only [h1, Function.update_self, Function.update_of_ne h2]
        · simp only [Function.update_of_ne h1]
      · simp only [Function.update_self]
        rw [getLsbD_clear _ _ hsl32]
        simp
      · intro fl' hfl' sl' hsl' hne
        by_cases h1 : fl' = fl
        · have h2 : sl' ≠ sl := fun h2 => hne ⟨h1, h2⟩
          rw [h1]
          simp only [Function.update_self]
          rw [Bool.eq_iff_iff, getLsbD_clear _ _ hsl']
          exact ⟨fun h => h.1, fun h => ⟨h, h2⟩⟩
        · simp only [Function.update_of_ne h1]
      · intro fl' hfl'
        by_cases hempty : t.slBitmap fl &&& ~~~(1#32 <<< sl) = 0
        · simp only [if_pos hempty]
          rw [getLsbD_clear _ _ hfl', hls.flBit fl' hfl']
          by_cases h1 : fl' = fl
          · simp only [h1, Function.update_self, hempty]
            simp
          · simp only [Function.update_of_ne h1]
            simp [h1]
        · simp only [if_neg hempty]
          rw [hls.flBit fl' hfl']
          by_cases h1 : fl' = fl
          · have hbefore : t.slBitmap fl ≠ 0 := (hls.sl_ne_zero hfl).mpr ⟨sl, hsl, by rw [heq]; simp⟩
            simp only [h1, Function.update_self]
            exact ⟨fun h => ⟨h.1, hempty⟩, fun h => ⟨h.1, hbefore⟩⟩
          · simp only [Function.update_of_ne h1]
    · -- the first of several
      rw [if_neg hlast]
      have hys : ys ≠ [] := fun h => hlast (hnz.mpr h)
      refine ⟨_, rfl, ⟨_, hls.remove hnodes hfl hsl heq hp hn hes' rfl rfl ?_ ?_ ?_ ?_ ?_⟩, hframe rfl rfl⟩
      · simp only [Function.update_self]
        rw [hnv]
        rfl
      · intro fl' sl' hne
        by_cases h1 : fl' = fl
        · have h2 : sl' ≠ sl := fun h2 => hne ⟨h1, h2⟩
          simp only [h1, Function.update_self, Function.update_of_ne h2]
        · simp only [Function.update_of_ne h1]
      · rw [hslOwn, heq]
        simpa using hys
      · intro fl' _ sl' _ _
        rfl
      · exact hls.flBit
  · -- a block behind the head
    rw [if_neg hfirst]
    have hxs : xs ≠ [] := fun h => hfirst (hhead.mpr h)
    refine ⟨_, rfl, ⟨_, hls.remove hnodes hfl hsl heq hp hn hes' rfl rfl ?_ ?_ ?_ ?_ ?_⟩, hframe rfl rfl⟩
    · obtain ⟨w, ws, rfl⟩ := List.exists_cons_of_ne_nil hxs
      show t.blocks fl sl = _
      rw [hheads, heq]
      rfl
    · intro fl' sl' _
      rfl
    · rw [hslOwn, heq]
      simp [hxs]
    · intro fl' _ sl' _ _
      rfl
    · exact hls.flBit

/-! Putting a block in. -/

section
variable {es : List Entry} {x y z : Nat}

/-- The memory after the three stores that put a block in front of `cur`. -/
def pushed (m : Mem) (z x cur : Nat) : Mem :=
  setPrevFree (setPrevFree (setNextFree m (BitVec.ofNat 64 x) (BitVec.ofNat 64 cur)) (BitVec.ofNat 64 x) (BitVec.ofNat 64 z))
    (BitVec.ofNat 64 cur) (BitVec.ofNat 64 x)

theorem next_pushed {m : Mem} {cur : Nat} (hnodes : Nodes z es) (hx : IsNode z es x) (hc : IsNode z es cur)
    (hy : IsNode z es y) :
    next (pushed m z x cur) y = Function.update (next m) x cur y ∧
      prev (pushed m z x cur) y = Function.update (Function.update (prev m) x z) cur x y := by
  have hxh := hnodes.node_high hx
  have hch := hnodes.node_high hc
  have hyh := hnodes.node_high hy
  have hzh := hnodes.nullHigh
  have hyx := hnodes.node_apart hx hy
  have hyc := hnodes.node_apart hc hy
  refine ⟨?_, ?_⟩
  · rw [pushed, next_setPrevFree hch hyh hyc, next_setPrevFree hxh hyh hyx, next_setNextFree hxh (by omega) hyh hyx]
  · rw [pushed, prev_setPrevFree hch (by omega) hyh hyc]
    by_cases heq : y = cur
    · rw [heq, Function.update_self, Function.update_self]
    · rw [Function.update_of_ne heq, Function.update_of_ne heq, prev_setPrevFree hxh (by omega) hyh hyx]
      by_cases heq' : y = x
      · rw [heq', Function.update_self, Function.update_self]
      · rw [Function.update_of_ne heq', Function.update_of_ne heq', prev_setNextFree hxh hyh hyx]

theorem pushed_outside {m : Mem} {cur : Nat} (hnodes : Nodes z es) (hx : IsNode z es x) (hc : IsNode z es cur)
    {a : BitVec 64} (ha : ∀ y, IsNode z es y → ¬ LinkByte y a.toNat) : pushed m z x cur a = m a := by
  rw [pushed, setPrevFree_outside (hnodes.node_high hc) _ (ha _ hc), setPrevFree_outside (hnodes.node_high hx) _ (ha _ hx),
    setNextFree_outside (hnodes.node_high hx) _ (ha _ hx)]

end

/-- `insert_free_block` puts a block, with its size, under its class. -/
theorem insertFreeBlock_listed {t : Control} {es : List Entry} {fl sl x n : Nat} (h : Listed t es)
    (hnodes : Nodes t.blockNull.toNat ((x, n) :: es)) (hclass : sizeClass n = (fl, sl)) (haligned : x % 8 = 0) :
    ∃ t', insertFreeBlock t (BitVec.ofNat 64 x) fl sl = some t' ∧ Listed t' ((x, n) :: es) ∧
      LinksOnly t t' ((x, n) :: es) := by
  obtain ⟨ls, hls⟩ := h
  have hfl : fl < flIndexCount := by
    have := sizeClass_fst_lt (hnodes.small (x, n) List.mem_cons_self)
    rwa [hclass] at this
  have hsl : sl < slIndexCount := by
    have := sizeClass_snd_lt n
    rwa [hclass] at this
  have hxnode : IsNode t.blockNull.toNat ((x, n) :: es) x := .inr ⟨n, List.mem_cons_self⟩
  have hxh := hnodes.node_high hxnode
  have hold : ∀ {fl' sl' y}, fl' < flIndexCount → sl' < slIndexCount → y ∈ ls fl' sl' →
      IsNode t.blockNull.toNat ((x, n) :: es) y ∧ y ≠ x := by
    intro fl' sl' y hfl' hsl' hy
    obtain ⟨k, hk, -⟩ := (hls.mem fl' hfl' sl' hsl' y).mp hy
    refine ⟨.inr ⟨k, List.mem_cons_of_mem _ hk⟩, ?_⟩
    rintro rfl
    have hapart : y + 16 ≤ y ∨ y + 16 ≤ y := (List.pairwise_cons.mp hnodes.apart).1 _ hk
    omega
  have hxz : x ≠ t.blockNull.toNat := by
    rintro rfl
    exact hnodes.null_not_entry n List.mem_cons_self
  have hnull : ∀ {fl' sl'}, fl' < flIndexCount → sl' < slIndexCount → t.blockNull.toNat ∉ ls fl' sl' := by
    intro fl' sl' hfl' hsl' hmem
    obtain ⟨k, hk, -⟩ := (hls.mem fl' hfl' sl' hsl' _).mp hmem
    exact hnodes.null_not_entry k (List.mem_cons_of_mem _ hk)
  generalize hcur : (ls fl sl).headD t.blockNull.toNat = cur
  have hcmem : cur = t.blockNull.toNat ∨ cur ∈ ls fl sl := by
    rcases Dlist.headD_mem t.blockNull.toNat (ls fl sl) with ⟨hz, -⟩ | hmem
    · exact .inl (hcur.symm.trans hz)
    · exact .inr (hcur ▸ hmem)
  have hcnode : IsNode t.blockNull.toNat ((x, n) :: es) cur := by
    rcases hcmem with hz | hmem
    · exact .inl hz
    · exact (hold hfl hsl hmem).1
  have hch := hnodes.node_high hcnode
  have hhead : t.blocks fl sl = BitVec.ofNat 64 cur := by rw [hls.heads fl hfl sl hsl, hcur]
  have hz : t.blockNull = BitVec.ofNat 64 t.blockNull.toNat := by rw [BitVec.ofNat_toNat, BitVec.setWidth_eq]
  have hptr : blockToPtr (BitVec.ofNat 64 x) = BitVec.ofNat 64 (x + 16) := by
    rw [BitVec.ofNat_add]
    rfl
  have hsl32 : sl < 32 := hsl
  rw [insertFreeBlock, inLists_eq hfl hsl]
  simp only [Option.bind_eq_bind, Option.bind_some, hhead]
  rw [tlsfAssert_true (bne_iff_ne.mpr (ofNat_ne_zero (hnodes.node_pos hcnode) (by omega))),
    tlsfAssert_true (bne_iff_ne.mpr (ofNat_ne_zero (hnodes.node_pos hxnode) (by omega)))]
  simp only [Option.bind_some]
  rw [hptr, alignPtr_aligned (by omega) (by omega)]
  simp only [Option.bind_some]
  rw [tlsfAssert_true (beq_self_eq_true _)]
  have hmem : setPrevFree (setPrevFree (setNextFree t.mem (BitVec.ofNat 64 x) (BitVec.ofNat 64 cur)) (BitVec.ofNat 64 x)
      t.blockNull) (BitVec.ofNat 64 cur) (BitVec.ofNat 64 x) = pushed t.mem t.blockNull.toNat x cur := by
    rw [pushed, ← hz]
  refine ⟨_, rfl, ⟨setList ls fl sl (x :: ls fl sl), ?_, ?_, ?_, ?_, ?_, ?_⟩, rfl, ?_⟩
  · intro fl' hfl' sl' hsl'
    by_cases hsame : fl' = fl ∧ sl' = sl
    · rw [hsame.1, hsame.2, setList_self]
      simp only [Function.update_self]
      rfl
    · rw [setList_of_ne _ hsame, ← hls.heads fl' hfl' sl' hsl']
      by_cases h1 : fl' = fl
      · have h2 : sl' ≠ sl := fun h2 => hsame ⟨h1, h2⟩
        simp only [h1, Function.update_self, Function.update_of_ne h2]
      · simp only [Function.update_of_ne h1]
  · intro fl' hfl' sl' hsl'
    simp only [hmem]
    by_cases hsame : fl' = fl ∧ sl' = sl
    · rw [hsame.1, hsame.2, setList_self]
      have hnot : x ∉ ls fl sl := fun hx => (hold hfl hsl hx).2 rfl
      have hnode : ∀ y ∈ x :: ls fl sl, IsNode t.blockNull.toNat ((x, n) :: es) y := by
        intro y hy
        rcases List.mem_cons.mp hy with rfl | hy
        · exact hxnode
        · exact (hold hfl hsl hy).1
      have hpush := (hls.links fl hfl sl hsl).push hnot (hls.distinct fl hfl sl hsl) hxz
      rw [hcur] at hpush
      exact hpush.congr (fun y hy => (next_pushed hnodes hxnode hcnode (hnode y hy)).1)
        (fun y hy => (next_pushed hnodes hxnode hcnode (hnode y hy)).2)
    · rw [setList_of_ne _ hsame]
      have hne : ∀ y ∈ ls fl' sl', y ≠ cur := by
        rintro y hy rfl
        rcases hcmem with rfl | hc
        · exact hnull hfl' hsl' hy
        · have hes : Nodes t.blockNull.toNat es :=
            ⟨hnodes.nullPos, hnodes.nullHigh, fun e he => hnodes.pos e (List.mem_cons_of_mem _ he),
              fun e he => hnodes.high e (List.mem_cons_of_mem _ he),
              fun e he => hnodes.nullApart e (List.mem_cons_of_mem _ he),
              fun e he => hnodes.small e (List.mem_cons_of_mem _ he), (List.pairwise_cons.mp hnodes.apart).2⟩
          exact hsame (hls.unique hes hfl hsl hfl' hsl' hc hy)
      apply (hls.links fl' hfl' sl' hsl').congr
      · intro y hy
        obtain ⟨hynode, hyx⟩ := hold hfl' hsl' hy
        rw [(next_pushed hnodes hxnode hcnode hynode).1, Function.update_of_ne hyx]
      · intro y hy
        obtain ⟨hynode, hyx⟩ := hold hfl' hsl' hy
        rw [(next_pushed hnodes hxnode hcnode hynode).2, Function.update_of_ne (hne y hy), Function.update_of_ne hyx]
  · intro fl' hfl' sl' hsl'
    by_cases hsame : fl' = fl ∧ sl' = sl
    · rw [hsame.1, hsame.2, setList_self]
      exact List.nodup_cons.mpr ⟨fun hx => (hold hfl hsl hx).2 rfl, hls.distinct fl hfl sl hsl⟩
    · rw [setList_of_ne _ hsame]
      exact hls.distinct fl' hfl' sl' hsl'
  · intro fl' hfl' sl' hsl' y
    have hentry : (∃ k, (y, k) ∈ (x, n) :: es ∧ sizeClass k = (fl', sl')) ↔
        (y = x ∧ fl' = fl ∧ sl' = sl) ∨ y ∈ ls fl' sl' := by
      rw [hls.mem fl' hfl' sl' hsl' y]
      refine ⟨?_, ?_⟩
      · rintro ⟨k, hk, hkc⟩
        rcases List.mem_cons.mp hk with heq | hk
        · obtain ⟨rfl, rfl⟩ := Prod.mk.inj heq
          obtain ⟨h1, h2⟩ := Prod.mk.inj (hkc.symm.trans hclass)
          exact .inl ⟨rfl, h1, h2⟩
        · exact .inr ⟨k, hk, hkc⟩
      · rintro (⟨rfl, rfl, rfl⟩ | ⟨k, hk, hkc⟩)
        · exact ⟨n, List.mem_cons_self, hclass⟩
        · exact ⟨k, List.mem_cons_of_mem _ hk, hkc⟩
    rw [hentry]
    by_cases hsame : fl' = fl ∧ sl' = sl
    · obtain ⟨rfl, rfl⟩ := hsame
      rw [setList_self, List.mem_cons]
      simp
    · rw [setList_of_ne _ hsame]
      simp [hsame]
  · intro fl' hfl' sl' hsl'
    by_cases hsame : fl' = fl ∧ sl' = sl
    · obtain ⟨rfl, rfl⟩ := hsame
      rw [setList_self]
      simp only [Function.update_self]
      rw [getLsbD_set _ _ hsl32]
      simp
    · rw [setList_of_ne _ hsame, ← hls.slBit fl' hfl' sl' hsl']
      by_cases h1 : fl' = fl
      · have h2 : sl' ≠ sl := fun h2 => hsame ⟨h1, h2⟩
        rw [h1]
        simp only [Function.update_self]
        rw [getLsbD_set _ _ hsl']
        exact ⟨fun h => h.resolve_right h2, fun h => .inl h⟩
      · simp only [Function.update_of_ne h1]
  · intro fl' hfl'
    simp only
    rw [getLsbD_set _ _ hfl', hls.flBit fl' hfl']
    by_cases h1 : fl' = fl
    · have hne : t.slBitmap fl ||| (1#32 <<< sl) ≠ 0 := by
        intro hzero
        have hbit := (getLsbD_set (t.slBitmap fl) sl hsl32).mpr (.inr rfl)
        rw [hzero] at hbit
        simp at hbit
      rw [h1]
      simp only [Function.update_self]
      exact ⟨fun _ => ⟨hfl, hne⟩, fun _ => .inr trivial⟩
    · simp only [Function.update_of_ne h1]
      simp [h1]
  · intro a ha
    simp only [hmem]
    exact pushed_outside hnodes hxnode hcnode ha

end Qnixx.Tlsf
