import Qnixx.TlsfHeap

/- The allocator's own checks. At rest `tlsf_check` and `tlsf_check_pool` reach
   no assertion that fails and return 0: the bitmaps agree with the lists, every
   block of a list is free and of the class, free blocks are coalesced, and the
   flags of neighbours agree. -/
namespace Qnixx.Tlsf
open ByteMem Tiling

theorem tlsfInsist_true {cond : Bool} (h : cond = true) (status : Int) : tlsfInsist cond status = some status := by
  rw [tlsfInsist, tlsfAssert_true h, h]
  rfl

section
variable {m₀ : Mem} {t : Control} {bs pre post : List Blk} {b n : Blk}

/-! `tlsf_check`. -/

/-- One round of the loop over a list. -/
theorem Rest.checkList_node (h : Rest m₀ t bs) {x k i j fuel : Nat} (hx : (x, k) ∈ entries bs)
    (hclass : sizeClass k = (i, j)) (status : Int) :
    checkList t i j (fuel + 1) (BitVec.ofNat 64 x) status =
      checkList t i j fuel (nextFree t.mem (BitVec.ofNat 64 x)) status := by
  obtain ⟨b, hb, hlisted, heq⟩ := mem_entries.mp hx
  obtain ⟨rfl, rfl⟩ := Prod.mk.inj heq
  obtain ⟨pre, post, rfl⟩ := List.append_of_mem hb
  have hfits := h.rep.fits_at
  have hin := h.rep.holds_at
  have hblt := h.rep.phys.size_lt
  have hleast := hfits.listed_least hlisted
  have hhigh := hfits.high
  have hfree : b.free = true := (h.settled b hb).listed.symm.trans hlisted
  obtain ⟨n, post, rfl⟩ := h.rep.phys.exists_next (b := b) (by omega)
  have hnfits : n.Fits := h.rep.phys.fits n (by simp)
  have hnin : n.In t.mem := h.rep.phys.holds n (by simp)
  obtain ⟨-, hprev, hnprev, hnfree⟩ := h.flags.at_free hfree
  have hnull : BitVec.ofNat 64 b.addr ≠ t.blockNull := by
    have hapart := h.rep.phys.nullApart b hb
    intro heq
    have haddr := congrArg BitVec.toNat heq
    rw [BitVec.toNat_ofNat, Nat.mod_eq_of_lt (by omega)] at haddr
    omega
  have hsize : decide (blockSizeMin ≤ blockSize t.mem b.ptr) = true := by
    rw [hin.blockSize hfits, decide_eq_true_eq, BitVec.le_def, BitVec.toNat_ofNat, Nat.mod_eq_of_lt (by omega)]
    exact hleast
  rw [checkList, if_pos hnull, show BitVec.ofNat 64 b.addr = b.ptr from rfl, h.rep.class_at, hclass, hsize,
    h.rep.blockNext (by omega)]
  simp only [Option.bind_eq_bind, Option.bind_some]
  rw [hin.blockIsFree hfits, hin.blockIsPrevFree hfits, hnin.blockIsFree hnfits, hnin.blockIsPrevFree hnfits, hfree, hprev,
    hnprev, hnfree]
  simp only [tlsfInsist_true, Bool.not_false, Option.bind_some, BEq.rfl, Bool.and_self]

/-- The loop over a list, from any of its blocks on. -/
theorem Rest.checkList_nodes (h : Rest m₀ t bs) {i j : Nat} (xs : List Nat) {p fuel : Nat}
    (hlinked : Dlist.Linked (next t.mem) (prev t.mem) t.blockNull.toNat p xs)
    (hxs : ∀ x ∈ xs, ∃ k, (x, k) ∈ entries bs ∧ sizeClass k = (i, j)) (hfuel : xs.length < fuel) (status : Int) :
    checkList t i j fuel (BitVec.ofNat 64 (xs.headD t.blockNull.toNat)) status = some status := by
  induction xs generalizing p fuel with
  | nil =>
    obtain ⟨fuel, rfl⟩ := Nat.exists_eq_succ_of_ne_zero (by omega : fuel ≠ 0)
    rw [checkList, if_neg]
    simp
  | cons x xs ih =>
    obtain ⟨-, hnext, hrest⟩ := hlinked
    obtain ⟨fuel, rfl⟩ := Nat.exists_eq_succ_of_ne_zero (by omega : fuel ≠ 0)
    obtain ⟨k, hk, hclass⟩ := hxs x List.mem_cons_self
    rw [List.length_cons] at hfuel
    have hptr : nextFree t.mem (BitVec.ofNat 64 x) = BitVec.ofNat 64 (xs.headD t.blockNull.toNat) := by
      rw [← hnext, next, BitVec.ofNat_toNat, BitVec.setWidth_eq]
    rw [List.headD_cons, h.checkList_node hk hclass, hptr]
    exact ih hrest (fun y hy => hxs y (List.mem_cons_of_mem _ hy)) (by omega)

theorem bit_eq_zero_iff (w : BitVec 32) {i : Nat} (hi : i < 32) : w &&& (1#32 <<< i) = 0 ↔ w.getLsbD i = false := by
  refine ⟨?_, ?_⟩
  · intro hzero
    have hbit := congrArg (fun v => v.getLsbD i) hzero
    simp only [BitVec.getLsbD_and, getLsbD_bit i hi, decide_true, Bool.and_true] at hbit
    rw [hbit]
    exact BitVec.getLsbD_zero
  · intro hclear
    apply BitVec.eq_of_getLsbD_eq
    intro j hj
    rw [BitVec.getLsbD_and, getLsbD_bit j hj]
    by_cases heq : j = i
    · rw [heq, hclear]
      simp
    · simp [heq]

theorem Rest.checkClass_ok (h : Rest m₀ t bs) {i j fuel : Nat} (hi : i < flIndexCount) (hj : j < slIndexCount)
    (hfuel : bs.length < fuel) (status : Int) : checkClass t fuel i j status = some status := by
  obtain ⟨ls, hls⟩ := h.rep.lists
  have hi32 : i < 32 := Nat.lt_trans hi (by decide)
  have hhead := hls.heads i hi j hj
  -- a list is no longer than the blocks
  have hlength : (ls i j).length ≤ bs.length := by
    have hsub : ls i j ⊆ (entries bs).map Prod.fst := by
      intro x hx
      obtain ⟨k, hk, -⟩ := (hls.mem i hi j hj x).mp hx
      exact List.mem_map.mpr ⟨(x, k), hk, rfl⟩
    have hle := List.Nodup.length_le_of_subset (hls.distinct i hi j hj) hsub
    rw [List.length_map, entries, List.length_map] at hle
    exact Nat.le_trans hle (List.length_filter_le _ _)
  have hfl : (if t.flBitmap &&& 1#32 <<< i = 0 then tlsfInsist (t.slBitmap i &&& 1#32 <<< j == 0) status else some status) =
      some status := by
    split
    · next hclear =>
      rw [bit_eq_zero_iff _ hi32] at hclear
      apply tlsfInsist_true
      have hzero : t.slBitmap i = 0 := by
        by_contra hne
        have := (hls.flBit i hi32).mpr ⟨hi, hne⟩
        rw [hclear] at this
        cases this
      rw [hzero]
      exact beq_iff_eq.mpr BitVec.zero_and
    · rfl
  have hrun : checkClass t fuel i j status =
      (if t.flBitmap &&& 1#32 <<< i = 0 then tlsfInsist (t.slBitmap i &&& 1#32 <<< j == 0) status else some status).bind
        (fun status => if t.slBitmap i &&& 1#32 <<< j = 0 then tlsfInsist (t.blocks i j == t.blockNull) status
          else (tlsfInsist (t.slBitmap i != 0) status).bind (fun status =>
            (tlsfInsist (t.blocks i j != t.blockNull) status).bind (fun status =>
              checkList t i j fuel (t.blocks i j) status))) := by
    rw [checkClass]
    split
    · rfl
    · rfl
  rw [hrun, hfl, Option.bind_some]
  simp only [bit_eq_zero_iff _ (show j < 32 from hj)]
  cases hbit : (t.slBitmap i).getLsbD j with
  | false =>
    have hempty : ls i j = [] := by
      by_contra hne
      rw [(hls.slBit i hi j hj).mpr hne] at hbit
      cases hbit
    rw [if_pos rfl]
    apply tlsfInsist_true
    rw [hhead, hempty]
    simp
  | true =>
    have hne := (hls.slBit i hi j hj).mp hbit
    obtain ⟨e, he, hblock, -⟩ := hls.head_entry hi hj hne
    obtain ⟨b, hb, hlisted, heq⟩ := mem_entries.mp he
    have hapart := h.rep.phys.nullApart b hb
    have hleast := (h.rep.phys.fits b hb).listed_least hlisted
    have hhigh := (h.rep.phys.fits b hb).high
    have hnull : t.blocks i j ≠ t.blockNull := by
      rw [hblock, ← heq]
      intro hsame
      have haddr := congrArg BitVec.toNat hsame
      rw [BitVec.toNat_ofNat, Nat.mod_eq_of_lt (by omega)] at haddr
      omega
    have hmap : t.slBitmap i ≠ 0 := (hls.sl_ne_zero hi).mpr ⟨j, hj, hne⟩
    rw [if_neg (by decide), tlsfInsist_true (bne_iff_ne.mpr hmap), Option.bind_some, tlsfInsist_true (bne_iff_ne.mpr hnull),
      Option.bind_some, hhead]
    apply h.checkList_nodes _ (hls.links i hi j hj) _ (by omega)
    intro x hx
    exact (hls.mem i hi j hj x).mp hx

/-- A loop that keeps the status. -/
theorem foldlM_keep {α : Type} {f : Int → α → Option Int} (xs : List α) (h : ∀ x ∈ xs, ∀ s, f s x = some s) (s : Int) :
    xs.foldlM f s = some s := by
  induction xs with
  | nil => rfl
  | cons x xs ih =>
    rw [List.foldlM_cons, h x List.mem_cons_self]
    exact ih (fun y hy => h y (List.mem_cons_of_mem _ hy))

theorem Rest.tlsfCheck (h : Rest m₀ t bs) {fuel : Nat} (hfuel : bs.length < fuel) : Tlsf.tlsfCheck t fuel = some 0 := by
  apply foldlM_keep
  intro i hi s
  apply foldlM_keep
  intro j hj s
  exact h.checkClass_ok (List.mem_range.mp hi) (List.mem_range.mp hj) hfuel s

/-! `tlsf_check_pool`. -/

def status (free : Bool) : Int := if free then 1 else 0

theorem Rest.walk_integrity (h : Rest m₀ t (pre ++ b :: post)) {fuel : Nat} (hfuel : post.length < fuel) (s : Int) :
    ∃ prev, walkBlocks t.mem (integrityWalker t.mem) fuel b.ptr { prevStatus := status b.prevFree, status := s } =
      some { prevStatus := prev, status := s } := by
  induction post generalizing pre b fuel with
  | nil =>
    obtain ⟨fuel, rfl⟩ := Nat.exists_eq_succ_of_ne_zero (by omega : fuel ≠ 0)
    have hzero : b.size = 0 := by
      by_contra hne
      obtain ⟨n, rest, heq⟩ := h.rep.phys.exists_next hne
      cases heq
    refine ⟨status b.prevFree, ?_⟩
    rw [walkBlocks, h.rep.holds_at.blockIsLast h.rep.fits_at, hzero, if_neg]
    rintro ⟨-, hlast⟩
    cases hlast
  | cons n post ih =>
    obtain ⟨fuel, rfl⟩ := Nat.exists_eq_succ_of_ne_zero (by omega : fuel ≠ 0)
    have hfits := h.rep.fits_at
    have hin := h.rep.holds_at
    rw [List.length_cons] at hfuel
    by_cases hzero : b.size = 0
    · refine ⟨status b.prevFree, ?_⟩
      rw [walkBlocks, hin.blockIsLast hfits, hzero, if_neg]
      rintro ⟨-, hlast⟩
      cases hlast
    · have hlast : Tlsf.blockIsLast t.mem b.ptr = false := by
        rw [hin.blockIsLast hfits]
        exact beq_eq_false_iff_ne.mpr hzero
      have hptr : blockFromPtr (blockToPtr b.ptr) = b.ptr := by
        rw [blockFromPtr, blockToPtr, BitVec.add_sub_cancel]
      have hwalk : integrityWalker t.mem (blockToPtr b.ptr) (blockSize t.mem b.ptr) (!blockIsFree t.mem b.ptr)
          { prevStatus := status b.prevFree, status := s } = some { prevStatus := status b.free, status := s } := by
        rw [integrityWalker, hptr, hin.blockIsPrevFree hfits, hin.blockIsFree hfits]
        simp only [Option.bind_eq_bind]
        rw [← status, tlsfInsist_true (beq_iff_eq.mpr rfl), Option.bind_some, tlsfInsist_true (beq_iff_eq.mpr rfl),
          Option.bind_some, Int.add_zero]
        rfl
      have hnprev : n.prevFree = b.free := by
        obtain ⟨-, -, -, hn, -⟩ := (flags_append _ _ _).mp h.flags
        exact hn
      have hnext := h.rep.blockNext hzero
      rw [List.append_cons] at h
      obtain ⟨prev, hrest⟩ := ih h (show post.length < fuel by omega)
      refine ⟨prev, ?_⟩
      rw [walkBlocks, if_pos ⟨hfits.ptr_ne, hlast⟩, hwalk, hnext]
      simp only [Option.bind_eq_bind, Option.bind_some]
      rw [← hnprev]
      exact hrest

/-- Where a pool starts there is a block, with none or a used one before it. -/
theorem Rest.pool_start (h : Rest m₀ t bs) {q : Nat × Nat} (hq : q ∈ pools bs) :
    ∃ pre b post, bs = pre ++ b :: post ∧ b.addr + 8 = q.1 ∧ b.prevFree = false := by
  cases bs with
  | nil => cases hq
  | cons c bs =>
    have hq' : q ∈ areas (c.piece :: bs.map Blk.piece) := hq
    obtain ⟨z, as, hareas, -⟩ := areas_cons c.piece (bs.map Blk.piece)
    rw [hareas, List.mem_cons] at hq'
    rcases hq' with rfl | hmem
    · exact ⟨[], c, bs, rfl, rfl, h.flags.1⟩
    · have htail : (q.1, q.2) ∈ (areas ((c :: bs).map Blk.piece)).tail := by
        rw [List.map_cons, hareas]
        exact hmem
      obtain ⟨pre, l, b, post, heq, hlast, hstart⟩ := areas_tail htail
      rw [heq] at h ⊢
      refine ⟨pre ++ [l], b, post, by simp, hstart, ?_⟩
      obtain ⟨-, -, -, hprev, -⟩ := (flags_append _ _ _).mp h.flags
      rw [hprev]
      exact (h.rep.fits_at.last (beq_iff_eq.mp hlast)).1

theorem Rest.tlsfCheckPool (h : Rest m₀ t bs) {q : Nat × Nat} (hq : q ∈ pools bs) {fuel : Nat}
    (hfuel : bs.length < fuel) : Tlsf.tlsfCheckPool t.mem fuel (BitVec.ofNat 64 q.1) = some 0 := by
  obtain ⟨pre, b, post, rfl, hstart, hprev⟩ := h.pool_start hq
  rw [List.length_append, List.length_cons] at hfuel
  obtain ⟨prev, hwalk⟩ := h.walk_integrity (show post.length < fuel by omega) 0
  have hptr : offsetToBlock (BitVec.ofNat 64 q.1) (-blockHeaderOverhead) = b.ptr := by
    rw [← hstart, offsetToBlock, blockHeaderOverhead, Blk.ptr]
    bv_omega
  rw [hprev] at hwalk
  rw [Tlsf.tlsfCheckPool, tlsfWalkPool, hptr, show (⟨0, 0⟩ : Integrity) = ⟨status false, 0⟩ from rfl, hwalk]
  rfl

end

end Qnixx.Tlsf
