import Qnixx.TxSend

/- Which bytes `rtl8139_send_packet` writes: first against the buffer it has
   computed, for every size, then against the buffers `startup_nic` obtained. -/
namespace Qnixx
open ByteMem

theorem byteAddrs_inside_iff (base : BitVec 64) {n N : Nat} (hn : n ≤ 2^64) (hN : N < 2^64) :
    (∀ a ∈ byteAddrs base n, Inside base N a) ↔ n ≤ N := by
  refine ⟨?_, ?_⟩
  · intro h
    by_contra hlt
    have hin := h (base + BitVec.ofNat 64 N) (List.mem_map.mpr ⟨N, List.mem_range.mpr (by omega), rfl⟩)
    rw [Inside] at hin
    bv_omega
  · intro h a ha
    obtain ⟨i, hi, rfl⟩ := List.mem_map.mp ha
    have hlt := List.mem_range.mp hi
    rw [Inside]
    bv_omega

theorem paddedSize_toNat (size : BitVec 64) : (paddedSize size).toNat = max size.toNat 60 := by
  rw [paddedSize]
  by_cases h : size < 60
  · rw [if_pos h]
    have : size.toNat < 60 := h
    rw [show (60 : BitVec 64).toNat = 60 from rfl]
    omega
  · rw [if_neg h]
    have : ¬ size.toNat < 60 := h
    omega

theorem padded_fits_iff (size : BitVec 64) : (paddedSize size).toNat ≤ txBufferSize ↔ size.toNat ≤ txBufferSize := by
  have hmin : 60 ≤ txBufferSize := by decide
  rw [paddedSize_toNat]
  omega

/-- A packet that fits leaves the rest of the buffer to be cleared. -/
theorem cleared_toNat {size : BitVec 64} (h : size.toNat ≤ txBufferSize) :
    (BitVec.ofNat 64 txBufferSize - paddedSize size).toNat = txBufferSize - max size.toNat 60 := by
  have hfits := (padded_fits_iff size).mpr h
  rw [← paddedSize_toNat]
  simp only [txBufferSize, packetSizeMax] at hfits ⊢
  bv_omega

theorem send_writes_inside_iff {higherHalf : BitVec 64} {inl : BitVec 16 → BitVec 32} {d : TxDriver} {c : Nat}
    (hfirst : FirstFree inl d c) (m : Mem) (data size : BitVec 64) :
    (∀ a ∈ (rtl8139SendPacket higherHalf inl m d data size).writes,
      Inside (txBase higherHalf d c) txBufferSize a) ↔ size.toNat ≤ txBufferSize := by
  obtain ⟨hcard, hfind⟩ := hfirst.found
  have hmax : txBufferSize < 2^64 := by decide
  rw [send_card hcard, hfind, List.forall_mem_append,
    byteAddrs_inside_iff _ (Nat.le_of_lt (BitVec.isLt _)) hmax,
    byteAddrs_inside_iff _ (Nat.le_of_lt (BitVec.isLt _)) hmax, padded_fits_iff]
  refine ⟨fun h => h.2, ?_⟩
  intro h
  refine ⟨?_, h⟩
  rw [cleared_toNat h]
  exact Nat.sub_le _ _

/-- **When a send writes only inside its buffer.** For every packet size and
    every state with a free descriptor: every byte written is one of the
    `TX_BUFFER_SIZE` bytes from the address computed on, and the size in the
    status register is not larger, if and only if the packet is not. -/
theorem send_inside_iff (higherHalf : BitVec 64) (inl : BitVec 16 → BitVec 32) (m : Mem) (d : TxDriver)
    (data size : BitVec 64) (c : Nat) (hfirst : FirstFree inl d c) :
    ((∀ a ∈ (rtl8139SendPacket higherHalf inl m d data size).writes,
        Inside (txBase higherHalf d c) txBufferSize a) ∧
      ∀ w ∈ (rtl8139SendPacket higherHalf inl m d data size).outl, w.2.toNat ≤ txBufferSize) ↔
      size.toNat ≤ txBufferSize := by
  rw [send_writes_inside_iff hfirst]
  refine ⟨fun h => h.1, ?_⟩
  intro h
  refine ⟨h, ?_⟩
  intro w hw
  rw [send_card hfirst.found.1] at hw
  rw [List.mem_singleton.mp hw, BitVec.toNat_setWidth]
  exact Nat.le_trans (Nat.mod_le _ _) ((padded_fits_iff size).mpr h)

/-- Every descriptor is free. -/
def ownAnswers : BitVec 16 → BitVec 32 := fun _ => txStatusOwn

theorem idleCard_first : FirstFree ownAnswers idleCard 2 :=
  ⟨0, by decide, by decide, by decide, fun j hj => absurd hj (Nat.not_lt_zero j)⟩

/-- A packet of `0x600` bytes fits, -/
theorem send_inside_iff_full :
    FirstFree ownAnswers idleCard 2 ∧
    ∀ a ∈ (rtl8139SendPacket 0xFFFF800000000000 ownAnswers (fun _ => 0) idleCard 0xFFFF800000009000 0x600).writes,
      Inside (txBase 0xFFFF800000000000 idleCard 2) txBufferSize a := by
  have hiff := send_inside_iff 0xFFFF800000000000 ownAnswers (fun _ => 0) idleCard 0xFFFF800000009000 0x600 2
    idleCard_first
  exact ⟨idleCard_first, (hiff.mpr (by decide)).1⟩

/-- and one of `0x601` bytes writes one byte behind the buffer. -/
theorem send_past_buffer :
    FirstFree ownAnswers idleCard 2 ∧
    ¬ ∀ a ∈ (rtl8139SendPacket 0xFFFF800000000000 ownAnswers (fun _ => 0) idleCard 0xFFFF800000009000 0x601).writes,
      Inside (txBase 0xFFFF800000000000 idleCard 2) txBufferSize a := by
  refine ⟨idleCard_first, ?_⟩
  intro h
  rw [send_card (by decide), idleCard_first.found.2] at h
  obtain ⟨-, hcopied⟩ := List.forall_mem_append.mp h
  have hle := (byteAddrs_inside_iff _ (Nat.le_of_lt (BitVec.isLt _)) (by decide)).mp hcopied
  exact absurd hle (by decide)

/-! Where the buffers are. -/

/-- A send of a packet that fits, on descriptor `i`, writes only into the buffer
    at physical address `phys`. -/
def FillsBuffer (higherHalf : BitVec 64) (txbufs : Int → BitVec 8) (i : Nat) (phys : BitVec 64) : Prop :=
  ∀ (inl : BitVec 16 → BitVec 32) (m : Mem) (d : TxDriver) (data size : BitVec 64), d.txbufs = txbufs →
    FirstFree inl d i → size.toNat ≤ txBufferSize →
    ∀ a ∈ (rtl8139SendPacket higherHalf inl m d data size).writes, Inside (phys + higherHalf) txBufferSize a

/-- The low byte of what `vmm_get_phys` returns is 0. -/
theorem vmmGetPhys_low_byte {s s' : Vm} {virt r : BitVec 64} (h : vmmGetPhys s virt = some (s', r)) :
    r.setWidth 8 = 0#8 := by
  have hmask : ∀ value, (pteGetAddr value).setWidth 8 = 0#8 := by
    intro value
    rw [pteGetAddr, BitVec.setWidth_and, show pteAddrMask.setWidth 8 = 0#8 by decide, BitVec.and_zero]
  rw [vmmGetPhys] at h
  split at h
  · cases h
  · cases h
    exact hmask _

theorem setupTxbufs_zero {kmalloc : Nat → Vm → Vm × BitVec 64} {s s' : Vm} {txbufs txbufs' : Int → BitVec 8}
    {n : Nat} (h : setupTxbufs kmalloc s txbufs n = some (s', txbufs')) : ∀ i : Nat, i < n → txbufs' i = 0 := by
  induction n generalizing s' txbufs' with
  | zero => exact fun i hi => absurd hi (Nat.not_lt_zero i)
  | succ n ih =>
    obtain ⟨⟨s₁, t₁⟩, hprev, h⟩ := Option.bind_eq_some_iff.mp h
    obtain ⟨⟨s₂, phys⟩, hphys, h⟩ := Option.bind_eq_some_iff.mp h
    cases h
    intro i hi
    by_cases heq : i = n
    · rw [heq, Function.update_self]
      exact vmmGetPhys_low_byte hphys
    · rw [Function.update_of_ne (by omega)]
      exact ih hprev i (by omega)

/-- The range filled starts at the same address for every descriptor, so it is
    in the buffer only if the buffer starts there. -/
theorem fillsBuffer_iff {txbufs : Int → BitVec 8} {i : Nat} (hi : i < txBufferCount) (hzero : txbufs i = 0)
    (higherHalf phys : BitVec 64) :
    FillsBuffer higherHalf txbufs i phys ↔ phys + higherHalf = alignDown higherHalf 0x1000#64 := by
  have hsame : ∀ d : TxDriver, d.txbufs = txbufs → txBase higherHalf d i = alignDown higherHalf 0x1000#64 := by
    intro d hd
    rw [txBase, hd, hzero, show (0 : BitVec 8).setWidth 64 = 0#64 from rfl, BitVec.zero_add]
  refine ⟨?_, ?_⟩
  · intro h
    -- the largest packet, while the cursor is at this descriptor
    have hfirst : FirstFree ownAnswers { iobase := 0x300, txbufs := txbufs, nextTxbuf := BitVec.ofNat 64 i } i := by
      refine ⟨0, by decide, ?_, ⟨show 0x300#32 ≠ 0 by decide, show txStatusOwn &&& txStatusOwn ≠ 0 by decide⟩,
        fun j hj => absurd hj (Nat.not_lt_zero j)⟩
      simp only [txBufferCount] at hi ⊢
      rw [BitVec.toNat_ofNat]
      omega
    have hall := h ownAnswers (fun _ => 0) _ 0 0x600 rfl hfirst (by decide)
    rw [send_card hfirst.found.1, hfirst.found.2, hsame _ rfl] at hall
    obtain ⟨-, hcopied⟩ := List.forall_mem_append.mp hall
    have hbyte : ∀ k, k < 0x600 → Inside (phys + higherHalf) txBufferSize
        (alignDown higherHalf 0x1000#64 + BitVec.ofNat 64 k) :=
      fun k hk => hcopied _ (List.mem_map.mpr ⟨k, List.mem_range.mpr hk, rfl⟩)
    have hfront := hbyte 0 (by decide)
    have hback := hbyte 0x5FF (by decide)
    simp only [Inside, txBufferSize, packetSizeMax] at hfront hback
    bv_omega
  · intro h inl m d data size hd hfirst hsize
    rw [h, ← hsame d hd]
    exact (send_writes_inside_iff hfirst m data size).mpr hsize

/-- **The descriptors never own their buffers.** For every run of `startup_nic`
    and every four buffers that are pairwise disjoint: it is not so that for
    every descriptor what a send fills is inside that descriptor's buffer. An
    element of `txbufs` keeps the low byte of a page's address, which is 0. -/
theorem txbufs_never_owned (higherHalf : BitVec 64) (kmalloc : Nat → Vm → Vm × BitVec 64) (s s' : Vm)
    (txbufs txbufs' : Int → BitVec 8) (hstart : setupTxbufs kmalloc s txbufs txBufferCount = some (s', txbufs'))
    (phys : Nat → BitVec 64)
    (hdisjoint : ∀ i j, i < txBufferCount → j < txBufferCount → i ≠ j →
      ∀ x, Inside (phys i) txBufferSize x → ¬ Inside (phys j) txBufferSize x) :
    ¬ ∀ i, i < txBufferCount → FillsBuffer higherHalf txbufs' i (phys i) := by
  intro howned
  have hzero := setupTxbufs_zero hstart
  have hfirst := (fillsBuffer_iff (by decide) (hzero 0 (by decide)) higherHalf (phys 0)).mp (howned 0 (by decide))
  have hsecond := (fillsBuffer_iff (by decide) (hzero 1 (by decide)) higherHalf (phys 1)).mp (howned 1 (by decide))
  have hsame : phys 0 = phys 1 := by
    have heq := hfirst.trans hsecond.symm
    bv_omega
  have hself : Inside (phys 0) txBufferSize (phys 0) := by
    rw [Inside, BitVec.sub_self]
    decide
  exact hdisjoint 0 1 (by decide) (by decide) (by decide) (phys 0) hself (hsame ▸ hself)

/-- The small machine with four more pages, from `0x1000` on, mapped to the
    frames from `0x7000` on. -/
def fourPagesVm : Vm :=
  (List.range 4).foldl (fun s i =>
    (vmmMapPage s s.cr3 (BitVec.ofNat 64 (0x1000 * (i + 1))) (BitVec.ofNat 64 (0x7000 + 0x1000 * i)) 3#64).getD s)
    onePageVm

/-- `kmalloc` there: one of the pages for each buffer. -/
def pageEach (i : Nat) (s : Vm) : Vm × BitVec 64 := (s, BitVec.ofNat 64 (0x1000 * (i + 1)))

theorem vmmGetPhys_pageEach : ∀ i < txBufferCount,
    (vmmGetPhys fourPagesVm (pageEach i fourPagesVm).2).map Prod.snd =
      some (BitVec.ofNat 64 (0x7000 + 0x1000 * i)) := by
  decide +kernel

theorem setupTxbufs_pageEach :
    ∃ s' txbufs', setupTxbufs pageEach fourPagesVm (fun _ => 0xFF) txBufferCount = some (s', txbufs') := by
  have hsome : (setupTxbufs pageEach fourPagesVm (fun _ => 0xFF) txBufferCount).isSome = true := by
    decide +kernel
  obtain ⟨⟨s', txbufs'⟩, hstart⟩ := Option.isSome_iff_exists.mp hsome
  exact ⟨s', txbufs', hstart⟩

theorem txbufs_never_owned_four_pages :
    ∃ s' txbufs', setupTxbufs pageEach fourPagesVm (fun _ => 0xFF) txBufferCount = some (s', txbufs') ∧
      ¬ ∀ i, i < txBufferCount →
        FillsBuffer 0xFFFF800000000000 txbufs' i (BitVec.ofNat 64 (0x7000 + 0x1000 * i)) := by
  obtain ⟨s', txbufs', hstart⟩ := setupTxbufs_pageEach
  refine ⟨s', txbufs', hstart, txbufs_never_owned 0xFFFF800000000000 pageEach fourPagesVm s' _ txbufs' hstart
    (fun i => BitVec.ofNat 64 (0x7000 + 0x1000 * i)) ?_⟩
  intro i j hi hj hne x hin
  simp only [txBufferCount] at hi hj
  simp only [Inside, txBufferSize, packetSizeMax] at hin ⊢
  bv_omega

/-- The first buffer at `0x1000`, which is physical address `0x7000`:
    descriptor 0 fills the bytes from physical address 0 on. -/
theorem first_buffer_not_filled :
    (vmmGetPhys fourPagesVm 0x1000#64).map Prod.snd = some 0x7000#64 ∧
    ∃ s' txbufs', setupTxbufs pageEach fourPagesVm (fun _ => 0xFF) txBufferCount = some (s', txbufs') ∧
      ¬ FillsBuffer 0xFFFF800000000000 txbufs' 0 0x7000 := by
  obtain ⟨s', txbufs', hstart⟩ := setupTxbufs_pageEach
  refine ⟨vmmGetPhys_pageEach 0 (by decide), s', txbufs', hstart, ?_⟩
  intro hfills
  have hzero := setupTxbufs_zero hstart 0 (by decide)
  exact absurd ((fillsBuffer_iff (by decide) hzero _ _).mp hfills) (by decide)

end Qnixx
