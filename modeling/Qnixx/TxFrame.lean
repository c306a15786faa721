import Qnixx.TxBounds

/- What `rtl8139_send_packet` puts on the wire. The buffer is cleared in front,
   for as many bytes as the packet leaves, and then the padded size is copied
   over it from where the caller's packet starts: what pads a short packet is
   what follows it in the caller's memory. -/
namespace Qnixx
open ByteMem

/-- Byte `i` of the frame: the packet, and zeros behind it. -/
def frameByte (m : Mem) (data size : BitVec 64) (i : Nat) : BitVec 8 :=
  if i < size.toNat then m (data + BitVec.ofNat 64 i) else 0

/-- Whatever memory holds, a byte that may have been cleared is byte `b` of the
    memory before only if it is that byte and was not cleared. -/
theorem forall_mem_eq_byte (P : Prop) [Decidable P] (a b : BitVec 64) :
    (∀ m : Mem, (if P then 0 else m a) = m b) ↔ ¬ P ∧ a = b := by
  refine ⟨?_, ?_⟩
  · intro h
    have hnot : ¬ P := by
      intro hp
      have hone := h (fun _ => 1)
      rw [if_pos hp] at hone
      exact absurd hone (by decide)
    refine ⟨hnot, ?_⟩
    by_contra hne
    have hdiff := h (fun x => if x = b then 1 else 0)
    rw [if_neg hnot] at hdiff
    simp only [hne, if_false, if_true] at hdiff
    exact absurd hdiff (by decide)
  · rintro ⟨hnot, rfl⟩ m
    exact if_neg hnot

theorem forall_mem_eq_zero (P : Prop) [Decidable P] (a : BitVec 64) :
    (∀ m : Mem, (if P then 0 else m a) = 0) ↔ P := by
  refine ⟨?_, fun hp m => if_pos hp⟩
  intro h
  by_contra hnot
  have hone := h (fun _ => 1)
  rw [if_neg hnot] at hone
  exact absurd hone (by decide)

section
variable {higherHalf : BitVec 64} {inl : BitVec 16 → BitVec 32} {d : TxDriver} {data size : BitVec 64}

/-- Byte `i` of the buffer after a send: a byte of the caller's memory, cleared
    before it was copied if it lies in the part of the buffer that is cleared. -/
theorem sent_byte (hcard : d.iobase ≠ 0) (hsize : size.toNat ≤ txBufferSize) (m : Mem) {base : BitVec 64}
    (hbase : base = txBase higherHalf d (findTxbuf inl d 0 txBufferCount)) {i : Nat}
    (hi : i < max size.toNat 60) :
    (rtl8139SendPacket higherHalf inl m d data size).mem (base + BitVec.ofNat 64 i) =
      if Inside base (txBufferSize - max size.toNat 60)
          (data + BitVec.ofNat 64 (i % (base - data).toNat)) then 0
      else m (data + BitVec.ofNat 64 (i % (base - data).toNat)) := by
  have hoff : (base + BitVec.ofNat 64 i - base).toNat = i := by
    have hlt : i < 2^64 := by omega
    bv_omega
  have hin : Inside base (paddedSize size).toNat (base + BitVec.ofNat 64 i) := by
    rw [Inside, hoff, paddedSize_toNat]
    exact hi
  rw [send_card hcard, ← hbase]
  dsimp only
  rw [memcpyMem_eq _ _ _ (Nat.le_of_lt (BitVec.isLt _)), if_pos hin, hoff,
    memzero_eq_fill _ _ (Nat.le_of_lt (BitVec.isLt _)), fill, cleared_toNat hsize]

/-- The frame is right for all contents of memory exactly when the bytes of the
    packet are copied from where they were, and the bytes behind it from the
    cleared part of the buffer. -/
theorem frame_iff_sources (hcard : d.iobase ≠ 0) (hsize : size.toNat ≤ txBufferSize) {base : BitVec 64}
    (hbase : base = txBase higherHalf d (findTxbuf inl d 0 txBufferCount)) :
    (∀ m : Mem, ∀ i, i < max size.toNat 60 →
      (rtl8139SendPacket higherHalf inl m d data size).mem (base + BitVec.ofNat 64 i) = frameByte m data size i) ↔
    (∀ i, i < size.toNat → ¬ Inside base (txBufferSize - max size.toNat 60)
        (data + BitVec.ofNat 64 (i % (base - data).toNat)) ∧ i % (base - data).toNat = i) ∧
    ∀ i, size.toNat ≤ i → i < 60 → Inside base (txBufferSize - max size.toNat 60)
        (data + BitVec.ofNat 64 (i % (base - data).toNat)) := by
  have hlt := size.isLt
  have hsame : ∀ i, i < size.toNat → (data + BitVec.ofNat 64 (i % (base - data).toNat) = data + BitVec.ofNat 64 i ↔
      i % (base - data).toNat = i) := by
    intro i hi
    have hmod := Nat.mod_le i (base - data).toNat
    refine ⟨?_, fun h => by rw [h]⟩
    intro h
    bv_omega
  rw [forall_comm]
  refine ⟨?_, ?_⟩
  · intro h
    refine ⟨?_, ?_⟩
    · intro i hi
      rw [← hsame i hi, ← forall_mem_eq_byte]
      intro m
      have hbyte := h i m (by omega)
      have hpacket : frameByte m data size i = m (data + BitVec.ofNat 64 i) := if_pos hi
      rw [sent_byte hcard hsize m hbase (by omega), hpacket] at hbyte
      exact hbyte
    · intro i hle hi
      refine (forall_mem_eq_zero _ (data + BitVec.ofNat 64 (i % (base - data).toNat))).mp ?_
      intro m
      have hbyte := h i m (by omega)
      have hzero : frameByte m data size i = 0 := if_neg (by omega)
      rw [sent_byte hcard hsize m hbase (by omega), hzero] at hbyte
      exact hbyte
  · rintro ⟨hpacket, hpadding⟩ i m hi
    rw [sent_byte hcard hsize m hbase hi, frameByte]
    by_cases hin : i < size.toNat
    · rw [if_pos hin, if_neg (hpacket i hin).1, (hpacket i hin).2]
    · rw [if_neg hin, if_pos (hpadding i (by omega) (by omega))]

/-- A copy does not run into itself exactly when no index is reduced. -/
theorem forall_mod_eq_iff (D n : Nat) : (∀ i, i < n → i % D = i) ↔ ¬ (0 < D ∧ D < n) := by
  refine ⟨?_, ?_⟩
  · intro h hd
    have hself := h D hd.2
    rw [Nat.mod_self] at hself
    omega
  · intro h i hi
    rcases Nat.eq_zero_or_pos D with hzero | hpos
    · rw [hzero, Nat.mod_zero]
    · exact Nat.mod_eq_of_lt (by omega)

/-- A short packet that is not empty: its padding would have to be copied from
    the cleared part of the buffer and the packet from outside of it, but the
    padding follows the packet. -/
theorem short_not_framed {base : BitVec 64} (hpos : 0 < size.toNat) (hshort : size.toNat < 60)
    (hpacket : ∀ i, i < size.toNat → ¬ Inside base (txBufferSize - 60)
        (data + BitVec.ofNat 64 (i % (base - data).toNat)) ∧ i % (base - data).toNat = i)
    (hpadding : Inside base (txBufferSize - 60)
        (data + BitVec.ofNat 64 (size.toNat % (base - data).toNat))) : False := by
  have hfirst := (hpacket 0 hpos).1
  have hapart := (forall_mod_eq_iff _ _).mp (fun i hi => (hpacket i hi).2)
  rw [Nat.zero_mod] at hfirst
  simp only [Inside, txBufferSize, packetSizeMax] at hfirst hpadding
  rcases Nat.lt_trichotomy size.toNat (base - data).toNat with hlt | heq | hgt
  · rw [Nat.mod_eq_of_lt hlt] at hpadding
    bv_omega
  · rw [heq, Nat.mod_self] at hpadding
    exact hfirst hpadding
  · bv_omega

/-- An empty packet: all 60 bytes come from where the caller points to. -/
theorem empty_framed_iff {base : BitVec 64} :
    (∀ i, i < 60 → Inside base (txBufferSize - 60) (data + BitVec.ofNat 64 (i % (base - data).toNat))) ↔
      (data - base).toNat + 60 ≤ txBufferSize - 60 := by
  simp only [Inside, txBufferSize, packetSizeMax]
  refine ⟨?_, ?_⟩
  · intro h
    have hfirst := h 0 (by decide)
    have hlast := h 59 (by decide)
    rw [Nat.zero_mod] at hfirst
    have hwide : (base - data).toNat = 0 ∨ 60 ≤ (base - data).toNat := by bv_omega
    have hmod := (forall_mod_eq_iff (base - data).toNat 60).mpr (by omega) 59 (by decide)
    rw [hmod] at hlast
    bv_omega
  · intro h i hi
    have hwide : (base - data).toNat = 0 ∨ 60 ≤ (base - data).toNat := by bv_omega
    rw [(forall_mod_eq_iff (base - data).toNat 60).mpr (by omega) i hi]
    bv_omega

/-- Which packets are copied from such places. -/
theorem sources_iff {base : BitVec 64} :
    ((∀ i, i < size.toNat → ¬ Inside base (txBufferSize - max size.toNat 60)
        (data + BitVec.ofNat 64 (i % (base - data).toNat)) ∧ i % (base - data).toNat = i) ∧
      ∀ i, size.toNat ≤ i → i < 60 → Inside base (txBufferSize - max size.toNat 60)
        (data + BitVec.ofNat 64 (i % (base - data).toNat))) ↔
    (60 ≤ size.toNat ∧
      (∀ i, i < size.toNat → ¬ Inside base (txBufferSize - size.toNat) (data + BitVec.ofNat 64 i)) ∧
      ¬ (0 < (base - data).toNat ∧ (base - data).toNat < size.toNat)) ∨
    (size.toNat = 0 ∧ (data - base).toNat + 60 ≤ txBufferSize - 60) := by
  rcases Nat.lt_or_ge size.toNat 60 with hshort | hlong
  · rw [Nat.max_eq_right (Nat.le_of_lt hshort)]
    refine ⟨?_, ?_⟩
    · rintro ⟨hpacket, hpadding⟩
      right
      rcases Nat.eq_zero_or_pos size.toNat with hzero | hpos
      · rw [hzero] at hpadding
        exact ⟨hzero, empty_framed_iff.mp (fun i hi => hpadding i (Nat.zero_le i) hi)⟩
      · exact (short_not_framed hpos hshort hpacket (hpadding _ (Nat.le_refl _) hshort)).elim
    · intro h
      rcases h with ⟨hlong, -⟩ | ⟨hzero, hinside⟩
      · omega
      · exact ⟨fun i hi => absurd hi (by omega), fun i _ hi => empty_framed_iff.mpr hinside i hi⟩
  · rw [Nat.max_eq_left hlong]
    refine ⟨?_, ?_⟩
    · rintro ⟨hpacket, -⟩
      left
      refine ⟨hlong, ?_, (forall_mod_eq_iff _ _).mp (fun i hi => (hpacket i hi).2)⟩
      intro i hi
      obtain ⟨hnot, hmod⟩ := hpacket i hi
      rwa [hmod] at hnot
    · intro h
      rcases h with ⟨-, hnot, hapart⟩ | ⟨hzero, -⟩
      · refine ⟨?_, fun i hle hi => absurd hi (by omega)⟩
        intro i hi
        have hmod := (forall_mod_eq_iff _ _).mpr hapart i hi
        rw [hmod]
        exact ⟨hnot i hi, rfl⟩
      · omega

end

/-- **When a frame reveals only the caller's data.** For every packet that fits
    the buffer and every two memories that agree on it: both sends leave the
    packet and then zeros in the buffer, if and only if the packet has at least
    60 bytes, is clear of what is cleared before the copy, and the buffer does
    not start inside it; or the packet is empty and the caller points 60 bytes
    or more before the end of what is cleared. -/
theorem frame_reveals_iff (higherHalf : BitVec 64) (inl : BitVec 16 → BitVec 32) (d : TxDriver)
    (data size : BitVec 64) (c : Nat) (hfirst : FirstFree inl d c) (hsize : size.toNat ≤ txBufferSize) :
    (∀ m m' : Mem, (∀ i, i < size.toNat → m (data + BitVec.ofNat 64 i) = m' (data + BitVec.ofNat 64 i)) →
      ∀ i, i < max size.toNat 60 →
        (rtl8139SendPacket higherHalf inl m d data size).mem (txBase higherHalf d c + BitVec.ofNat 64 i) =
          frameByte m data size i ∧
        (rtl8139SendPacket higherHalf inl m' d data size).mem (txBase higherHalf d c + BitVec.ofNat 64 i) =
          frameByte m data size i) ↔
    (60 ≤ size.toNat ∧
      (∀ i, i < size.toNat →
        ¬ Inside (txBase higherHalf d c) (txBufferSize - size.toNat) (data + BitVec.ofNat 64 i)) ∧
      ¬ (0 < (txBase higherHalf d c - data).toNat ∧ (txBase higherHalf d c - data).toNat < size.toNat)) ∨
    (size.toNat = 0 ∧ (data - txBase higherHalf d c).toNat + 60 ≤ txBufferSize - 60) := by
  obtain ⟨hcard, hfind⟩ := hfirst.found
  have hbase : txBase higherHalf d c = txBase higherHalf d (findTxbuf inl d 0 txBufferCount) := by rw [hfind]
  -- two runs that agree on the packet have one frame, so it is enough to look at one
  have hframe : ∀ m m' : Mem,
      (∀ i, i < size.toNat → m (data + BitVec.ofNat 64 i) = m' (data + BitVec.ofNat 64 i)) →
      ∀ i, frameByte m' data size i = frameByte m data size i := by
    intro m m' hagree i
    rw [frameByte, frameByte]
    by_cases hin : i < size.toNat
    · rw [if_pos hin, if_pos hin, hagree i hin]
    · rw [if_neg hin, if_neg hin]
  calc _ ↔ ∀ m : Mem, ∀ i, i < max size.toNat 60 →
        (rtl8139SendPacket higherHalf inl m d data size).mem (txBase higherHalf d c + BitVec.ofNat 64 i) =
          frameByte m data size i := by
        refine ⟨fun h m i hi => (h m m (fun _ _ => rfl) i hi).1, ?_⟩
        intro h m m' hagree i hi
        exact ⟨h m i hi, (h m' i hi).trans (hframe m m' hagree i)⟩
    _ ↔ _ := frame_iff_sources hcard hsize hbase
    _ ↔ _ := sources_iff

/-- A packet of 60 bytes away from the buffer is framed, -/
theorem frame_reveals_iff_sixty :
    FirstFree ownAnswers idleCard 2 ∧ ∀ m i, i < 60 →
      (rtl8139SendPacket 0xFFFF800000000000 ownAnswers m idleCard 0xFFFF800000009000 60).mem
        (txBase 0xFFFF800000000000 idleCard 2 + BitVec.ofNat 64 i) = frameByte m 0xFFFF800000009000 60 i := by
  have hiff := frame_reveals_iff 0xFFFF800000000000 ownAnswers idleCard 0xFFFF800000009000 60 2
    idleCard_first (by decide)
  refine ⟨idleCard_first, ?_⟩
  intro m i hi
  exact (hiff.mpr (.inl ⟨by decide, by decide, by decide⟩) m m (fun _ _ => rfl) i hi).1

/-- and behind one of 4 bytes follows the byte of the kernel that was there. -/
theorem short_frame_leaks :
    FirstFree ownAnswers idleCard 2 ∧ ∃ m m' : Mem,
      (∀ i, i < 4 → m (0xFFFF800000009000 + BitVec.ofNat 64 i) = m' (0xFFFF800000009000 + BitVec.ofNat 64 i)) ∧
      (rtl8139SendPacket 0xFFFF800000000000 ownAnswers m idleCard 0xFFFF800000009000 4).mem
          (txBase 0xFFFF800000000000 idleCard 2 + BitVec.ofNat 64 4) ≠
        (rtl8139SendPacket 0xFFFF800000000000 ownAnswers m' idleCard 0xFFFF800000009000 4).mem
          (txBase 0xFFFF800000000000 idleCard 2 + BitVec.ofNat 64 4) := by
  refine ⟨idleCard_first, fun _ => 0, fun x => if x = 0xFFFF800000009004 then 0x53 else 0, by decide, ?_⟩
  have hbase : txBase 0xFFFF800000000000 idleCard 2 =
      txBase 0xFFFF800000000000 idleCard (findTxbuf ownAnswers idleCard 0 txBufferCount) := by
    rw [idleCard_first.found.2]
    rfl
  rw [sent_byte (by decide) (by decide) _ hbase (by decide), sent_byte (by decide) (by decide) _ hbase (by decide)]
  decide

end Qnixx
