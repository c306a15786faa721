import Qnixx.ProcessMem

/- `kmalloc` and `kcalloc` (`mm/heap.c`) on an allocator that is a parameter:
   `tlsf_malloc` returns NULL or a block. `kcalloc` multiplies in 64 bits and
   clears what it was given without looking at it, so a count that wraps gets a
   block that is too small, and NULL is cleared as well. -/
namespace Qnixx
open ByteMem

/-- The allocator's context, the memory and `bytes_allocated`. -/
structure Heap (Ctx : Type) where
  ctx : Ctx
  mem : Mem
  bytesAllocated : BitVec 64

/-- `tlsf_malloc` on its context and the memory: the block, `none` for NULL, and
    both after it. -/
abbrev TlsfMalloc (Ctx : Type) := Ctx → Mem → BitVec 64 → Option HeapBlock × Ctx × Mem

/-- What is assumed of it: a block of at least the size asked for, disjoint from
    the live ones, whose bytes it leaves as they are; a call that fails changes
    nothing. -/
structure TlsfSpec {Ctx : Type} (malloc : TlsfMalloc Ctx) (live : Ctx → List HeapBlock) : Prop where
  size : ∀ ctx m sz b, (malloc ctx m sz).1 = some b → sz.toNat ≤ b.size
  disjoint : ∀ ctx m sz b, (malloc ctx m sz).1 = some b → ∀ c ∈ live ctx, b.Disjoint c
  kept : ∀ ctx m sz, ∀ c ∈ live ctx, ∀ x, c.Has x → (malloc ctx m sz).2.2 x = m x
  failed : ∀ ctx m sz, (malloc ctx m sz).1 = none → (malloc ctx m sz).2 = (ctx, m)

/-- The pointer to a block. -/
def blockPtr : Option HeapBlock → BitVec 64
  | none => 0
  | some b => BitVec.ofNat 64 b.start

section
variable {Ctx : Type}

def kmalloc (malloc : TlsfMalloc Ctx) (h : Heap Ctx) (sz : BitVec 64) : Option HeapBlock × Heap Ctx :=
  let r := malloc h.ctx h.mem sz
  (r.1, { ctx := r.2.1, mem := r.2.2, bytesAllocated := h.bytesAllocated + sz })

/-- The addresses `memzero` writes. -/
def memzeroWrites (ptr : BitVec 64) (n : Nat) : List (BitVec 64) :=
  (List.range n).map (fun i => ptr + BitVec.ofNat 64 i)

/-- A call of `kcalloc`: what it returns, the heap after it and the addresses it
    has written. -/
structure KcallocRun (Ctx : Type) where
  block : Option HeapBlock
  heap : Heap Ctx
  writes : List (BitVec 64)

def kcalloc (malloc : TlsfMalloc Ctx) (h : Heap Ctx) (nmemb size : BitVec 64) : KcallocRun Ctx :=
  let r := kmalloc malloc h (size * nmemb)
  { block := r.1
    heap := { r.2 with mem := memzero r.2.mem (blockPtr r.1) (size * nmemb).toNat }
    writes := memzeroWrites (blockPtr r.1) (size * nmemb).toNat }

/-- The two outcomes: a block that holds all elements, cleared; or NULL, and
    nothing written. -/
structure KcallocSafe (malloc : TlsfMalloc Ctx) (h : Heap Ctx) (nmemb size : BitVec 64) : Prop where
  returned : ∀ b, (kcalloc malloc h nmemb size).block = some b → nmemb.toNat * size.toNat ≤ b.size ∧
    ∀ i < nmemb.toNat * size.toNat, (kcalloc malloc h nmemb size).heap.mem (BitVec.ofNat 64 (b.start + i)) = 0
  failed : (malloc h.ctx h.mem (size * nmemb)).1 = none →
    (kcalloc malloc h nmemb size).block = none ∧ (kcalloc malloc h nmemb size).heap.mem = h.mem ∧
      (kcalloc malloc h nmemb size).writes = []

/-- The allocator has a block for the size that `kcalloc` asks for. -/
def Served (malloc : TlsfMalloc Ctx) (h : Heap Ctx) (nmemb size : BitVec 64) : Prop :=
  (malloc h.ctx h.mem (size * nmemb)).1 ≠ none

theorem memzero_zero {m : Mem} {b : HeapBlock} {n i : Nat} (hn : n ≤ b.size) (hi : i < n) :
    memzero m (BitVec.ofNat 64 b.start) n (BitVec.ofNat 64 (b.start + i)) = 0 := by
  have hfits := b.fits
  have hinside : Inside (BitVec.ofNat 64 b.start) n (BitVec.ofNat 64 (b.start + i)) := by
    rw [Inside, BitVec.ofNat_add, sub_ofNat _ (by omega)]
    exact hi
  rw [memzero_eq_fill _ _ (by omega), fill, if_pos hinside]

/-- The bytes outside of what `memzero` writes stay. -/
theorem memzero_outside (m : Mem) (ptr : BitVec 64) (n : Nat) {x : BitVec 64} (hx : x ∉ memzeroWrites ptr n) :
    memzero m ptr n x = m x := by
  induction n with
  | zero => rfl
  | succ n ih =>
    rw [memzeroWrites, List.range_succ, List.map_append, List.mem_append, not_or, List.map_singleton,
      List.mem_singleton] at hx
    rw [memzero, store8, if_neg hx.2]
    exact ih hx.1

theorem product_toNat {nmemb size : BitVec 64} (h : nmemb.toNat * size.toNat < 2^64) :
    (size * nmemb).toNat = nmemb.toNat * size.toNat := by
  rw [BitVec.toNat_mul, Nat.mul_comm, Nat.mod_eq_of_lt h]

section
variable {malloc : TlsfMalloc Ctx} {live : Ctx → List HeapBlock} {h : Heap Ctx} {nmemb size : BitVec 64}

/-- When the product does not wrap, a block that is returned is large enough and
    cleared. -/
theorem kcalloc_returned (hspec : TlsfSpec malloc live) (hfit : nmemb.toNat * size.toNat < 2^64) {b : HeapBlock}
    (hb : (kcalloc malloc h nmemb size).block = some b) :
    nmemb.toNat * size.toNat ≤ b.size ∧
      ∀ i < nmemb.toNat * size.toNat, (kcalloc malloc h nmemb size).heap.mem (BitVec.ofNat 64 (b.start + i)) = 0 := by
  have hmalloc : (malloc h.ctx h.mem (size * nmemb)).1 = some b := hb
  have hsize := hspec.size _ _ _ _ hmalloc
  rw [product_toNat hfit] at hsize
  refine ⟨hsize, ?_⟩
  intro i hi
  show memzero _ (blockPtr (malloc h.ctx h.mem (size * nmemb)).1) (size * nmemb).toNat _ = 0
  rw [hmalloc, product_toNat hfit]
  exact memzero_zero hsize hi

/-- No block holds `2^64` bytes. -/
theorem block_size_lt (b : HeapBlock) : b.size < 2^64 := by
  have hpos := b.pos
  have hfits := b.fits
  omega

theorem memzeroWrites_eq_nil (ptr : BitVec 64) (n : Nat) : memzeroWrites ptr n = [] ↔ n = 0 := by
  rw [memzeroWrites, List.map_eq_nil_iff, List.range_eq_nil]

/-- When the call of `tlsf_malloc` fails, NULL is cleared too, as far as the
    product goes. -/
theorem kcalloc_failed_iff (hspec : TlsfSpec malloc live) (hnone : (malloc h.ctx h.mem (size * nmemb)).1 = none) :
    ((kcalloc malloc h nmemb size).block = none ∧ (kcalloc malloc h nmemb size).heap.mem = h.mem ∧
      (kcalloc malloc h nmemb size).writes = []) ↔ nmemb.toNat * size.toNat % 2^64 = 0 := by
  have hproduct : (size * nmemb).toNat = nmemb.toNat * size.toNat % 2^64 := by
    rw [BitVec.toNat_mul, Nat.mul_comm]
  have hwrites : (kcalloc malloc h nmemb size).writes = [] ↔ nmemb.toNat * size.toNat % 2^64 = 0 := by
    rw [← hproduct]
    exact memzeroWrites_eq_nil _ _
  refine ⟨fun hsafe => hwrites.mp hsafe.2.2, ?_⟩
  intro hzero
  refine ⟨hnone, ?_, hwrites.mpr hzero⟩
  show memzero (malloc h.ctx h.mem (size * nmemb)).2.2 _ (size * nmemb).toNat = h.mem
  rw [hproduct, hzero, hspec.failed _ _ _ hnone]
  rfl

/-- The live blocks keep their bytes over a call that returns a block. -/
theorem kcalloc_live (hspec : TlsfSpec malloc live) (hserved : Served malloc h nmemb size) {c : HeapBlock}
    (hc : c ∈ live h.ctx) {x : BitVec 64} (hx : c.Has x) : (kcalloc malloc h nmemb size).heap.mem x = h.mem x := by
  obtain ⟨b, hb⟩ := Option.ne_none_iff_exists'.mp hserved
  have hsize := hspec.size _ _ _ _ hb
  have hdisjoint := hspec.disjoint _ _ _ _ hb c hc
  have hoff : x ∉ memzeroWrites (blockPtr (some b)) (size * nmemb).toNat := by
    intro hwritten
    obtain ⟨i, hi, rfl⟩ := List.mem_map.mp hwritten
    have hi := List.mem_range.mp hi
    have hfits := b.fits
    have hat : (blockPtr (some b) + BitVec.ofNat 64 i).toNat = b.start + i := by
      rw [blockPtr, ← BitVec.ofNat_add, BitVec.toNat_ofNat, Nat.mod_eq_of_lt (by omega)]
    rw [HeapBlock.Has, hat] at hx
    rw [HeapBlock.Disjoint] at hdisjoint
    omega
  have hkept : memzero (malloc h.ctx h.mem (size * nmemb)).2.2 (blockPtr (some b)) (size * nmemb).toNat x =
      (malloc h.ctx h.mem (size * nmemb)).2.2 x := memzero_outside _ _ _ hoff
  show memzero (malloc h.ctx h.mem (size * nmemb)).2.2 (blockPtr (malloc h.ctx h.mem (size * nmemb)).1) _ x = _
  rw [hb, hkept]
  exact hspec.kept _ _ _ c hc x hx

end

/-- Both outcomes are safe just when the product does not wrap where there is a
    block for it, and is 0 modulo `2^64` where there is none. -/
theorem kcalloc_safe_iff (malloc : TlsfMalloc Ctx) (live : Ctx → List HeapBlock) (hspec : TlsfSpec malloc live)
    (h : Heap Ctx) (nmemb size : BitVec 64) :
    KcallocSafe malloc h nmemb size ↔
      (Served malloc h nmemb size → nmemb.toNat * size.toNat < 2^64) ∧
      (¬ Served malloc h nmemb size → nmemb.toNat * size.toNat % 2^64 = 0) := by
  refine ⟨?_, ?_⟩
  · intro hsafe
    refine ⟨?_, ?_⟩
    · intro hserved
      obtain ⟨b, hb⟩ := Option.ne_none_iff_exists'.mp hserved
      exact Nat.lt_of_le_of_lt (hsafe.returned b hb).1 (block_size_lt b)
    · intro hfull
      have hnone := Classical.not_not.mp hfull
      exact (kcalloc_failed_iff hspec hnone).mp (hsafe.failed hnone)
  · rintro ⟨hfit, hzero⟩
    refine ⟨?_, ?_⟩
    · intro b hb
      have hmalloc : (malloc h.ctx h.mem (size * nmemb)).1 = some b := hb
      have hserved : Served malloc h nmemb size := by
        rw [Served, hmalloc]
        exact Option.some_ne_none b
      exact kcalloc_returned hspec (hfit hserved) hb
    · intro hnone
      exact (kcalloc_failed_iff hspec hnone).mpr (hzero (Classical.not_not.mpr hnone))

end

/-- An allocator with one block of 32 bytes to give; its context is what is live. -/
def onePool : TlsfMalloc (List HeapBlock) := fun live m sz =>
  if live = [] ∧ 0 < sz.toNat ∧ sz.toNat ≤ 32 then
    (some ⟨0x1000, 32, by decide, by decide⟩, [⟨0x1000, 32, by decide, by decide⟩], m)
  else (none, live, m)

theorem onePool_spec : TlsfSpec onePool id := by
  refine ⟨?_, ?_, ?_, ?_⟩
  · intro ctx m sz b hb
    rw [onePool] at hb
    split at hb
    · next hfree =>
      cases hb
      exact hfree.2.2
    · cases hb
  · intro ctx m sz b hb c hc
    rw [onePool] at hb
    split at hb
    · next hfree =>
      rw [hfree.1] at hc
      cases hc
    · cases hb
  · intro ctx m sz c _ x _
    rw [onePool]
    split <;> rfl
  · intro ctx m sz hnone
    rw [onePool] at hnone ⊢
    split at hnone
    · cases hnone
    · next hfull => rw [if_neg hfull]

theorem kcalloc_safe_two : KcallocSafe onePool ⟨[], fun _ => 0xFF, 0⟩ 2 8 :=
  (kcalloc_safe_iff onePool id onePool_spec ⟨[], fun _ => 0xFF, 0⟩ 2 8).mpr
    ⟨fun _ => by decide, fun hfull => absurd (Option.some_ne_none _) hfull⟩

/-- A full heap, where the bytes from address 0 on are cleared; and a count that
    wraps to 16 bytes. -/
theorem kcalloc_unsafe :
    ¬ KcallocSafe onePool ⟨[⟨0x1000, 32, by decide, by decide⟩], fun _ => 0xFF, 0⟩ 1 8 ∧
    ¬ KcallocSafe onePool ⟨[], fun _ => 0xFF, 0⟩ 0x8000000000000008 2 := by
  refine ⟨?_, ?_⟩
  · intro hsafe
    have hnone : (onePool [⟨0x1000, 32, by decide, by decide⟩] (fun _ => 0xFF) (8 * 1)).1 = none := rfl
    have hwrites := (hsafe.failed hnone).2.2
    exact absurd ((memzeroWrites_eq_nil _ _).mp hwrites) (by decide)
  · intro hsafe
    have hsize := (hsafe.returned ⟨0x1000, 32, by decide, by decide⟩ rfl).1
    exact absurd hsize (by decide)

end Qnixx
