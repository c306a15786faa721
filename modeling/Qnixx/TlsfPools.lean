import Qnixx.TlsfRealloc

/- `tlsf_create` and `tlsf_add_pool`. A new pool is one free block with the
   block of size 0 behind it; the memory outside of the pools is not touched. -/
namespace Qnixx.Tlsf
open ByteMem Tiling

/-! Headers of memory that is not known. -/

theorem blockSetSize_eq (m : Mem) (a : Nat) {size : Nat} (hsize : size % 8 = 0) :
    ∃ f g, blockSetSize m (BitVec.ofNat 64 a) (BitVec.ofNat 64 size) =
      setSizeField m (BitVec.ofNat 64 a) (headerWord size f g) := by
  rw [blockSetSize, size_or_flags hsize]
  exact ⟨_, _, rfl⟩

theorem sizeField_setSizeField (m : Mem) (block v : BitVec 64) : sizeField (setSizeField m block v) block = v :=
  load64_store64 m (block + 8) v

theorem setSizeField_setSizeField (m : Mem) (block v w : BitVec 64) :
    setSizeField (setSizeField m block v) block w = setSizeField m block w :=
  store64_store64 m (block + 8) v w

/-- The first block of a pool. -/
theorem set_first_header (m : Mem) (a : Nat) {size : Nat} (hsize : size % 8 = 0) :
    blockSetPrevUsed (blockSetFree (blockSetSize m (BitVec.ofNat 64 a) (BitVec.ofNat 64 size)) (BitVec.ofNat 64 a))
      (BitVec.ofNat 64 a) = setSizeField m (BitVec.ofNat 64 a) (headerWord size true false) := by
  obtain ⟨f, g, heq⟩ := blockSetSize_eq m a hsize
  rw [heq, blockSetFree, sizeField_setSizeField, setSizeField_setSizeField, headerWord_setFree hsize, blockSetPrevUsed,
    sizeField_setSizeField, setSizeField_setSizeField, headerWord_setPrevUsed hsize]

/-- The last block of a pool. -/
theorem set_last_header (m : Mem) (a : Nat) :
    blockSetPrevFree (blockSetUsed (blockSetSize m (BitVec.ofNat 64 a) 0) (BitVec.ofNat 64 a)) (BitVec.ofNat 64 a) =
      setSizeField m (BitVec.ofNat 64 a) (headerWord 0 false true) := by
  obtain ⟨f, g, heq⟩ := blockSetSize_eq m a (show 0 % 8 = 0 from rfl)
  have heq : blockSetSize m (BitVec.ofNat 64 a) 0 = setSizeField m (BitVec.ofNat 64 a) (headerWord 0 f g) := heq
  rw [heq, blockSetUsed, sizeField_setSizeField, setSizeField_setSizeField, headerWord_setUsed rfl, blockSetPrevFree,
    sizeField_setSizeField, setSizeField_setSizeField, headerWord_setPrevFree rfl]

theorem srem_alignSize {p : Nat} (hp : p % 8 = 0) : (BitVec.ofNat 64 p).srem alignSize = 0 := by
  have halign : alignSize.msb = false := by decide
  have hzero : ∀ x : BitVec 64, x.toNat % 8 = 0 → x.umod alignSize = 0 := by
    intro x hx
    apply BitVec.eq_of_toNat_eq
    rw [BitVec.umod_eq, BitVec.toNat_umod]
    exact hx
  rw [BitVec.srem_eq, halign]
  cases (BitVec.ofNat 64 p).msb with
  | false =>
    apply hzero
    rw [BitVec.toNat_ofNat]
    omega
  | true =>
    have hneg : (-BitVec.ofNat 64 p).umod alignSize = 0 := by
      apply hzero
      rw [BitVec.toNat_neg, BitVec.toNat_ofNat]
      omega
    show -((-BitVec.ofNat 64 p).umod alignSize) = 0
    rw [hneg]
    rfl

/-! A store that `block_insert` does not see. -/

theorem insertFreeBlock_store {t : Control} {block a v : BitVec 64} {fl sl : Nat} (hnext : Apart a (block + 16))
    (hprev : Apart a (block + 24)) (hhead : Apart a (t.blocks fl sl + 24)) :
    insertFreeBlock { t with mem := store64 t.mem a v } block fl sl =
      (insertFreeBlock t block fl sl).map (fun t => { t with mem := store64 t.mem a v }) := by
  have hmem : setPrevFree (setPrevFree (setNextFree (store64 t.mem a v) block (t.blocks fl sl)) block t.blockNull)
      (t.blocks fl sl) block = store64 (setPrevFree (setPrevFree (setNextFree t.mem block (t.blocks fl sl)) block t.blockNull)
      (t.blocks fl sl) block) a v := by
    simp only [setNextFree, setPrevFree]
    rw [store64_comm _ _ _ hnext, store64_comm _ _ _ hprev, store64_comm _ _ _ hhead]
  rw [insertFreeBlock, insertFreeBlock]
  dsimp only
  rw [hmem]
  cases inLists fl sl with
  | none => rfl
  | some _ =>
    cases tlsfAssert (t.blocks fl sl != 0) with
    | none => rfl
    | some _ =>
      cases tlsfAssert (block != 0) with
      | none => rfl
      | some _ =>
        cases alignPtr (blockToPtr block) alignSize with
        | none => rfl
        | some aligned =>
          simp only [Option.bind_eq_bind, Option.bind_some]
          cases tlsfAssert (blockToPtr block == aligned) with
          | none => rfl
          | some _ => rfl

theorem apart_ofNat {a c : Nat} (ha : a + 8 ≤ 2^64) (hc : c + 8 ≤ 2^64) (h : a + 8 ≤ c ∨ c + 8 ≤ a) :
    Apart (BitVec.ofNat 64 a) (BitVec.ofNat 64 c) := by
  have ha' : a % 2^64 = a := Nat.mod_eq_of_lt (by omega)
  have hc' : c % 2^64 = c := Nat.mod_eq_of_lt (by omega)
  rw [Apart, BitVec.toNat_sub, BitVec.toNat_sub, BitVec.toNat_ofNat, BitVec.toNat_ofNat, ha', hc']
  omega

/-- The first block of every list is a node. -/
theorem Listed.head_node {t : Control} {es : List Entry} (h : Listed t es) {fl sl : Nat} (hfl : fl < flIndexCount)
    (hsl : sl < slIndexCount) : ∃ x, t.blocks fl sl = BitVec.ofNat 64 x ∧ IsNode t.blockNull.toNat es x := by
  obtain ⟨ls, hls⟩ := h
  refine ⟨_, hls.heads fl hfl sl hsl, ?_⟩
  cases hlist : ls fl sl with
  | nil => exact .inl rfl
  | cons x xs =>
    apply hls.isNode hfl hsl
    rw [hlist]
    exact List.mem_cons_self

/-! `tlsf_add_pool`. -/

/-- The block that a pool starts as, and the one at its end. -/
def poolBlock (p size : Nat) : Blk :=
  { addr := p - 8, size := size, free := true, prevFree := false, linked := true, listed := true, data := [] }

def poolEnd (p size : Nat) : Blk :=
  { addr := p + size, size := 0, free := false, prevFree := true, linked := false, listed := false, data := [] }

/-- The memory with the headers of both. -/
def poolHeaders (m : Mem) (p size : Nat) : Mem :=
  setSizeField (setSizeField m (BitVec.ofNat 64 (p - 8)) (headerWord size true false)) (BitVec.ofNat 64 (p + size))
    (headerWord 0 false true)

/-- A place for a pool with `size` bytes of blocks. -/
structure Room (t : Control) (bs : List Blk) (p size : Nat) : Prop where
  low : 16 ≤ p
  aligned : p % 8 = 0
  words : size % 8 = 0
  least : 24 ≤ size
  small : size < 2^32
  high : p + size + 16 ≤ 2^64
  apart : ∀ b ∈ bs, p + size + 16 ≤ b.addr + 8 ∨ b.addr + 16 + b.size ≤ p
  control : p + size + 16 ≤ t.blockNull.toNat ∨ t.blockNull.toNat + 6536 ≤ p

section
variable {m₀ : Mem} {t : Control} {bs : List Blk} {p size : Nat}

/-- Both headers written, and the block not yet linked. -/
theorem Rest.pool_headers (h : Rest m₀ t bs) (hroom : Room t bs p size) :
    Rep m₀ { t with mem := poolHeaders t.mem p size }
      ({ poolBlock p size with linked := false, listed := false } :: poolEnd p size :: bs) := by
  obtain ⟨hlow, haligned, hwords, hleast, hsmall, hhigh, hapart, hnull⟩ := hroom
  have hp : p - 8 + 8 = p := by omega
  rw [poolHeaders, setSizeField_ofNat, setSizeField_ofNat, hp]
  generalize hm : store64 (store64 t.mem (BitVec.ofNat 64 p) (headerWord size true false))
    (BitVec.ofNat 64 (p + size + 8)) (headerWord 0 false true) = m
  have hagree : ∀ lo hi, p + size + 16 ≤ lo ∨ hi ≤ p → Agree t.mem m lo hi := by
    intro lo hi hout
    rw [← hm]
    exact (agree_store64 _ _ (by omega) (by omega)).trans (agree_store64 _ _ (by omega) (by omega))
  refine ⟨⟨?_, ?_, ?_, h.rep.phys.nullPos, h.rep.phys.nullHigh, ?_, ?_⟩, ?_⟩
  · rw [List.map_cons, List.map_cons]
    refine h.rep.phys.tiled.add (beq_eq_false_iff_ne.mpr ?_) rfl ?_ ?_ ?_ ?_ ?_
    · show size ≠ 0
      omega
    · simp only [Blk.piece, poolEnd, poolBlock]
      omega
    · simp only [Blk.piece, poolBlock]
      omega
    · simp only [Blk.piece, poolEnd]
      omega
    · simp only [Blk.piece, poolBlock]
      omega
    · intro r hr
      obtain ⟨c, hc, rfl⟩ := List.mem_map.mp hr
      have := hapart c hc
      simp only [Piece.Apart, Blk.piece, poolEnd, poolBlock]
      omega
  · intro c hc
    simp only [List.mem_cons] at hc
    rcases hc with rfl | rfl | hc
    · refine ⟨?_, ?_, hwords, .inr hleast, ?_, ?_, Nat.zero_le _, ?_, ?_⟩
      · show 0 < p - 8
        omega
      · show (p - 8) % 8 = 0
        omega
      · show p - 8 + 16 + size ≤ 2^64
        omega
      · intro hzero
        exact absurd (show size = 0 from hzero) (by omega)
      · intro hl
        cases hl
      · intro hl
        cases hl
    · refine ⟨?_, ?_, rfl, .inl rfl, ?_, fun _ => ⟨rfl, rfl, rfl⟩, Nat.le_refl _, ?_, ?_⟩
      · show 0 < p + size
        omega
      · show (p + size) % 8 = 0
        omega
      · show p + size + 16 + 0 ≤ 2^64
        omega
      · intro hl
        cases hl
      · intro hl
        cases hl
    · exact h.rep.phys.fits c hc
  · intro c hc
    simp only [List.mem_cons] at hc
    rcases hc with rfl | rfl | hc
    · refine ⟨?_, ?_, ?_⟩
      · show sizeField m (BitVec.ofNat 64 (p - 8)) = headerWord size true false
        rw [sizeField_ofNat, hp, ← hm, load64_store64_apart _ _ (apart_ofNat (by omega) (by omega) (by omega)),
          load64_store64]
      · intro hl
        cases hl
      · intro i x hx
        cases hx
    · refine ⟨?_, ?_, ?_⟩
      · show sizeField m (BitVec.ofNat 64 (p + size)) = headerWord 0 false true
        rw [sizeField_ofNat, ← hm, load64_store64]
      · intro hl
        cases hl
      · intro i x hx
        cases hx
    · apply (h.rep.phys.holds c hc).agree (h.rep.phys.fits c hc)
      apply hagree
      exact hapart c hc
  · intro c hc
    simp only [List.mem_cons] at hc
    rcases hc with rfl | rfl | hc
    · simp only [poolBlock]
      omega
    · simp only [poolEnd]
      omega
    · exact h.rep.phys.nullApart c hc
  · intro x hx hz
    rw [← h.rep.phys.outside x (fun c hc => hx c (by simp [hc])) hz]
    have hb := hx _ List.mem_cons_self
    have he := hx (poolEnd p size) (by simp)
    simp only [Piece.Has, Blk.piece, poolBlock, poolEnd] at hb he
    exact hagree x.toNat (x.toNat + 1) (by omega) x (Nat.le_refl _) (Nat.lt_succ_self _)
  · rw [entries_cons, entries_cons]
    apply h.rep.lists.agree h.rep.phys.nodes.high
    intro e he
    obtain ⟨c, hc, hcl, rfl⟩ := mem_entries.mp he
    have hc24 := (h.rep.phys.fits c hc).listed_least hcl
    have := hapart c hc
    apply hagree
    show p + size + 16 ≤ c.addr + 16 ∨ c.addr + 32 ≤ p
    omega

theorem blockNext_congr {m m' : Mem} {block : BitVec 64} (h : sizeField m' block = sizeField m block) :
    blockNext m' block = blockNext m block := by
  rw [blockNext, blockNext, blockIsLast, blockIsLast, blockSize, blockSize, h]

/-- `block_insert` before the header at the end of the pool is written. -/
theorem Rest.pool_insert (h : Rest m₀ t bs) (hroom : Room t bs p size) :
    ∃ t', blockInsert { t with mem := setSizeField t.mem (BitVec.ofNat 64 (p - 8)) (headerWord size true false) }
        (BitVec.ofNat 64 (p - 8)) = some t' ∧
      Rep m₀ { t' with mem := setSizeField t'.mem (BitVec.ofNat 64 (p + size)) (headerWord 0 false true) }
        ({ poolBlock p size with linked := false } :: poolEnd p size :: bs) ∧ t'.blockNull = t.blockNull := by
  have hheaders : Rep m₀ _ ([] ++ _ :: _) := h.pool_headers hroom
  obtain ⟨t2, hinsert, hrep, hz⟩ := hheaders.blockInsert rfl
    (by show size ≠ 0; have := hroom.least; omega) rfl
  obtain ⟨hlow, haligned, hwords, hleast, hsmall, hhigh, hapart, hnull⟩ := hroom
  have hp : p - 8 + 8 = p := by omega
  have hclass := hheaders.class_at
  have hclass' : mappingInsert (blockSize (setSizeField t.mem (BitVec.ofNat 64 (p - 8)) (headerWord size true false))
      (BitVec.ofNat 64 (p - 8))) = sizeClass size := by
    rw [blockSize, sizeField_setSizeField, headerWord_size hwords, mappingInsert_eq, BitVec.toNat_ofNat,
      Nat.mod_eq_of_lt (by omega)]
  have hclass : mappingInsert (blockSize (poolHeaders t.mem p size) (BitVec.ofNat 64 (p - 8))) = sizeClass size := hclass
  -- the head of the list is in an older block, or the null block
  obtain ⟨x, hx, hnode⟩ := h.rep.lists.head_node (sizeClass_fst_lt hsmall) (sizeClass_snd_lt size)
  have hxapart : Apart (BitVec.ofNat 64 (p + size + 8)) (t.blocks (sizeClass size).1 (sizeClass size).2 + 24) := by
    rw [hx, show (24 : BitVec 64) = BitVec.ofNat 64 24 from rfl, ← BitVec.ofNat_add]
    rcases hnode with rfl | ⟨k, hk⟩
    · have := h.rep.phys.nullHigh
      exact apart_ofNat (by omega) (by omega) (by omega)
    · obtain ⟨c, hc, hcl, heq⟩ := mem_entries.mp hk
      obtain ⟨rfl, rfl⟩ := Prod.mk.inj heq
      have hc24 := (h.rep.phys.fits c hc).listed_least hcl
      have hchigh := (h.rep.phys.fits c hc).high
      have := hapart c hc
      exact apart_ofNat (by omega) (by omega) (by omega)
  have hlink : ∀ k, k ≤ 24 → Apart (BitVec.ofNat 64 (p + size + 8)) (BitVec.ofNat 64 (p - 8) + BitVec.ofNat 64 k) := by
    intro k hk
    rw [← BitVec.ofNat_add]
    exact apart_ofNat (by omega) (by omega) (by omega)
  have hstore := insertFreeBlock_store
    (t := { t with mem := setSizeField t.mem (BitVec.ofNat 64 (p - 8)) (headerWord size true false) })
    (v := headerWord 0 false true) (hlink 16 (by omega)) (hlink 24 (by omega)) hxapart
  have hinsert : blockInsert { t with mem := poolHeaders t.mem p size } (BitVec.ofNat 64 (p - 8)) = some t2 := hinsert
  rw [blockInsert] at hinsert
  dsimp only at hinsert
  rw [hclass, poolHeaders, setSizeField_ofNat _ (p + size)] at hinsert
  rw [hstore, Option.map_eq_some_iff] at hinsert
  obtain ⟨t', hrun, rfl⟩ := hinsert
  refine ⟨t', ?_, ?_, hz⟩
  · rw [blockInsert]
    dsimp only
    rw [hclass']
    exact hrun
  · rw [setSizeField_ofNat]
    exact hrep

theorem Rest.tlsfAddPool (h : Rest m₀ t bs) {bytes : BitVec 64} (hbytes : (bytes - 16).toNat / 8 * 8 = size)
    (hroom : Room t bs p size) :
    ∃ t', Tlsf.tlsfAddPool t (BitVec.ofNat 64 p) bytes = some (BitVec.ofNat 64 p, t') ∧
      Rest m₀ t' (poolBlock p size :: poolEnd p size :: bs) ∧ t'.blockNull = t.blockNull := by
  obtain ⟨t1, hinsert, hrep, hz⟩ := h.pool_insert hroom
  obtain ⟨hlow, haligned, hwords, hleast, hsmall, hhigh, hapart, hnull⟩ := hroom
  have hne : size ≠ 0 := by omega
  have hrep : Rep m₀ _ ([] ++ _ :: _ :: _) := hrep
  obtain ⟨m3, hlink, hrep3⟩ := hrep.blockLinkNext hne
  simp only [poolBlock, List.take_nil, List.nil_append] at hrep3
  have hp : p - 8 + 8 = p := by omega
  have hblock : offsetToBlock (BitVec.ofNat 64 p) (-blockHeaderOverhead) = BitVec.ofNat 64 (p - 8) := by
    rw [offsetToBlock, blockHeaderOverhead]
    bv_omega
  have hbytes' : bytes - 2 * blockHeaderOverhead = bytes - 16 := rfl
  have hrange : (BitVec.ofNat 64 size < blockSizeMin || blockSizeMax < BitVec.ofNat 64 size) = false := by
    rw [Bool.or_eq_false_iff, decide_eq_false_iff_not, decide_eq_false_iff_not, BitVec.lt_def, BitVec.lt_def,
      BitVec.toNat_ofNat, Nat.mod_eq_of_lt (by omega), show blockSizeMin.toNat = 24 from rfl,
      show blockSizeMax.toNat = 2^32 from rfl]
    omega
  -- the header at the end may be written first
  have hfirst : sizeField (setSizeField t1.mem (BitVec.ofNat 64 (p + size)) (headerWord 0 false true))
      (BitVec.ofNat 64 (p - 8)) = sizeField t1.mem (BitVec.ofNat 64 (p - 8)) := by
    rw [setSizeField_ofNat, sizeField_ofNat, sizeField_ofNat]
    exact load64_store64_apart _ _ (apart_ofNat (by omega) (by omega) (by omega))
  have hnext : blockNext t1.mem (BitVec.ofNat 64 (p - 8)) = some (BitVec.ofNat 64 (p + size)) := by
    have hnext := hrep.blockNext hne
    rw [← blockNext_congr hfirst]
    exact hnext
  have hm3 : setSizeField (setPrevPhysBlock t1.mem (BitVec.ofNat 64 (p + size)) (BitVec.ofNat 64 (p - 8)))
      (BitVec.ofNat 64 (p + size)) (headerWord 0 false true) = m3 := by
    have hlink : blockLinkNext (setSizeField t1.mem (BitVec.ofNat 64 (p + size)) (headerWord 0 false true))
        (BitVec.ofNat 64 (p - 8)) = some (BitVec.ofNat 64 (p + size), m3) := hlink
    rw [blockLinkNext, blockNext_congr hfirst, hnext] at hlink
    simp only [Option.bind_eq_bind, Option.bind_some, Option.pure_def, Option.some.injEq, Prod.mk.injEq, true_and] at hlink
    rw [← hlink, setSizeField_ofNat, setSizeField_ofNat, setPrevPhysBlock, setPrevPhysBlock]
    exact store64_comm _ _ _ (apart_ofNat (by omega) (by omega) (by omega))
  refine ⟨{ t1 with mem := m3 }, ?_, ⟨hrep3, ?_, ?_⟩, hz⟩
  · rw [Tlsf.tlsfAddPool, hbytes', alignDown_words, hbytes]
    simp only [Option.bind_eq_bind, Option.bind_some]
    rw [srem_alignSize haligned, if_neg (not_not.mpr rfl), hrange, hblock, set_first_header _ _ hwords, hinsert]
    simp only [Option.bind_some, Bool.false_eq_true, if_false]
    rw [blockLinkNext, hnext]
    simp only [Option.bind_eq_bind, Option.bind_some, Option.pure_def]
    rw [set_last_header, hm3]
  · exact ⟨rfl, fun hf => absurd hf Bool.false_ne_true, rfl, fun _ => rfl, h.flags⟩
  · intro c hc
    simp only [List.mem_cons] at hc
    rcases hc with rfl | rfl | hc
    · exact ⟨rfl, rfl, fun hf => absurd hf.symm Bool.false_ne_true⟩
    · exact ⟨rfl, rfl, fun _ => rfl⟩
    · exact h.settled c hc

end

/-! `tlsf_create`. -/

/-- Without a pool every list is empty. -/
theorem rest_controlConstruct {m : Mem} {z : Nat} (hpos : 0 < z) (hz : z + 32 ≤ 2^64) :
    Rest m (controlConstruct m (BitVec.ofNat 64 z)) [] := by
  have hnull : (controlConstruct m (BitVec.ofNat 64 z)).blockNull.toNat = z := by
    show (BitVec.ofNat 64 z).toNat = z
    rw [BitVec.toNat_ofNat, Nat.mod_eq_of_lt (by omega)]
  refine ⟨⟨⟨tiled_nil, ?_, ?_, ?_, ?_, ?_, ?_⟩, ?_⟩, trivial, ?_⟩
  · intro b hb
    cases hb
  · intro b hb
    cases hb
  · rw [hnull]
    exact hpos
  · rw [hnull]
    exact hz
  · intro b hb
    cases hb
  · intro x _ hx
    rw [hnull] at hx
    have hout : ¬ LinkByte z x.toNat := by
      rw [LinkByte]
      omega
    show setPrevFree (setNextFree m (BitVec.ofNat 64 z) (BitVec.ofNat 64 z)) (BitVec.ofNat 64 z) (BitVec.ofNat 64 z) x = m x
    rw [setPrevFree_outside hz _ hout, setNextFree_outside hz _ hout]
  · refine ⟨fun _ _ => [], ?_, ?_, ?_, ?_, ?_, ?_⟩
    · intro fl _ sl _
      rw [hnull]
      rfl
    · intro fl _ sl _
      exact trivial
    · intro fl _ sl _
      exact List.nodup_nil
    · intro fl _ sl _ x
      refine ⟨?_, ?_⟩
      · intro hx
        cases hx
      · rintro ⟨n, hn, -⟩
        cases hn
    · intro fl _ sl _
      refine ⟨?_, fun hne => absurd rfl hne⟩
      intro hbit
      have hbit : (0#32).getLsbD sl = true := hbit
      rw [BitVec.getLsbD_zero] at hbit
      cases hbit
    · intro fl _
      refine ⟨?_, ?_⟩
      · intro hbit
        have hbit : (0#32).getLsbD fl = true := hbit
        rw [BitVec.getLsbD_zero] at hbit
        cases hbit
      · rintro ⟨-, hne⟩
        exact absurd rfl hne
  · intro b hb
    cases hb

/-- `tlsf_create_with_pool`: one free block, all of the memory behind the control
    structure but for two words and what is not a whole word. -/
theorem tlsfCreateWithPool_rest {m : Mem} {z bytes : Nat} (hpos : 0 < z) (haligned : z % 8 = 0) (hbytes : 6576 ≤ bytes)
    (hsmall : bytes < 2^32 + 6552) (hhigh : z + bytes ≤ 2^64) :
    ∃ t, tlsfCreateWithPool m (BitVec.ofNat 64 z) (BitVec.ofNat 64 bytes) = some (some t) ∧
      Rest m t [poolBlock (z + 6536) ((bytes - 6552) / 8 * 8), poolEnd (z + 6536) ((bytes - 6552) / 8 * 8)] ∧
      t.blockNull = BitVec.ofNat 64 z := by
  have hnull : (controlConstruct m (BitVec.ofNat 64 z)).blockNull.toNat = z := by
    show (BitVec.ofNat 64 z).toNat = z
    rw [BitVec.toNat_ofNat, Nat.mod_eq_of_lt (by omega)]
  have hsize : (BitVec.ofNat 64 bytes - tlsfSize - 16).toNat / 8 * 8 = (bytes - 6552) / 8 * 8 := by
    have hsub : (BitVec.ofNat 64 bytes - tlsfSize - 16).toNat = bytes - 6552 := by
      rw [tlsfSize]
      bv_omega
    rw [hsub]
  have hroom : Room (controlConstruct m (BitVec.ofNat 64 z)) [] (z + 6536) ((bytes - 6552) / 8 * 8) := by
    refine ⟨by omega, by omega, by omega, by omega, by omega, by omega, ?_, ?_⟩
    · intro b hb
      cases hb
    · rw [hnull]
      exact .inr (Nat.le_refl _)
  obtain ⟨t, hadd, hrest, hz⟩ := (rest_controlConstruct (m := m) hpos (by omega)).tlsfAddPool hsize hroom
  refine ⟨t, ?_, hrest, hz⟩
  have hptr : BitVec.ofNat 64 z + tlsfSize = BitVec.ofNat 64 (z + 6536) := by
    rw [BitVec.ofNat_add]
    rfl
  rw [tlsfCreateWithPool, tlsfCreate, srem_alignSize haligned, if_neg (not_not.mpr rfl)]
  simp only [Option.bind_eq_bind]
  rw [hptr, hadd]
  rfl

end Qnixx.Tlsf
