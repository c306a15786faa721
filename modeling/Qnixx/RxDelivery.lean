import Qnixx.RxRing

/- What the driver gets out of the receive ring over whole runs: which packets
   it delivers, that it stays in step with the device, and which bytes it
   reads. -/
namespace Qnixx
open ByteMem

/-- The packets a run stores, in order. -/
def storedPackets : List RxOp → List Packet
  | [] => []
  | .store p :: ops => p :: storedPackets ops
  | .recieve :: ops => storedPackets ops

/-- How often a run calls `recieve`. -/
def recieveCalls : List RxOp → Nat
  | [] => 0
  | .store _ :: ops => recieveCalls ops
  | .recieve :: ops => recieveCalls ops + 1

/-! Which packets are delivered. -/

/-- After `k` calls with `ps` stored: every call has passed a packet, or the
    driver is stuck at a bad one. -/
structure Progress (s : RxRing) (ps : List Packet) (k : Nat) : Prop where
  split : ps = s.received ++ s.unread
  count : k = s.received.length ∨
    (s.received.length < k ∧ ∃ p rest, s.unread = p :: rest ∧ p.good = false)

section
variable {rxbuf : BitVec 64} {s t : RxRing} {ps : List Packet} {k : Nat}

theorem Progress.store (h : Progress s ps k) (p : Packet) :
    Progress (s.store rxbuf p) (ps ++ [p]) k := by
  refine ⟨?_, ?_⟩
  · rw [h.split, List.append_assoc]
    rfl
  · rcases h.count with hk | ⟨hk, q, rest, hu, hq⟩
    · exact .inl hk
    · refine .inr ⟨hk, q, rest ++ [p], ?_, hq⟩
      show s.unread ++ [p] = q :: (rest ++ [p])
      rw [hu, List.cons_append]

theorem Progress.call (h : Progress s ps k) (hi : RxInv rxbuf s) (hu : s.unread ≠ []) :
    Progress (s.call rxbuf) ps (k + 1) := by
  cases hunread : s.unread with
  | nil => exact absurd hunread hu
  | cons p rest =>
    have hsplit := h.split
    cases hp : p.good with
    | false =>
      rw [hi.call_bad hunread hp]
      refine ⟨hsplit, .inr ⟨?_, p, rest, hunread, hp⟩⟩
      rcases h.count with hk | ⟨hk, -⟩ <;> omega
    | true =>
      rw [(hi.call_good hunread hp).1]
      refine ⟨?_, .inl ?_⟩
      · rw [hsplit, hunread, List.append_assoc]
        rfl
      · rcases h.count with hk | ⟨-, q, rest', hq, hbad⟩
        · rw [List.length_append, List.length_singleton, ← hk]
        · -- a driver that is stuck has a bad packet before it
          rw [hunread, List.cons.injEq] at hq
          rw [← hq.1, hp] at hbad
          cases hbad

theorem progress_run {ops : List RxOp} (hi : RxInv rxbuf s) (h : Progress s ps k)
    (hs : Runs.exec (rxStep rxbuf) s ops = some t) :
    Progress t (ps ++ storedPackets ops) (k + recieveCalls ops) := by
  induction ops generalizing s ps k with
  | nil =>
    simp only [Runs.exec, Option.some.injEq] at hs
    rw [storedPackets, List.append_nil]
    exact hs ▸ h
  | cons op ops ih =>
    obtain ⟨u, hu, hrest⟩ := Runs.exec_cons.mp hs
    have hiu := rxInv_step hi hu
    obtain ⟨p, rfl, -, rfl⟩ | ⟨rfl, hne, rfl⟩ := rxStep_cases hu
    · have := ih hiu (h.store p) hrest
      rwa [List.append_assoc] at this
    · have := ih hiu (h.call hi hne) hrest
      rwa [Nat.add_assoc, Nat.add_comm 1] at this

end

/-- No good packet comes after a bad one. -/
def BadLast (ps : List Packet) : Prop := ps.Pairwise (fun p q => q.good = true → p.good = true)

instance (ps : List Packet) : Decidable (BadLast ps) :=
  inferInstanceAs (Decidable (ps.Pairwise _))

theorem badLast_of_good {ps : List Packet} (h : ∀ p ∈ ps, p.good = true) : BadLast ps :=
  List.pairwise_of_forall_mem_list (fun p hp _ _ _ => h p hp)

theorem filter_good {ps : List Packet} (h : ∀ p ∈ ps, p.good = true) : ps.filter Packet.good = ps :=
  List.filter_eq_self.mpr h

/-- **A bad packet blocks the ring.** In every run that stores packets and
    calls `recieve` once for each, in any order, the payloads of the good
    packets are delivered once and in order exactly when no good packet comes
    after a bad one. -/
theorem good_packets_delivered_iff (rxbuf : BitVec 64) (mem : Mem) (packetBuf : Nat → BitVec 8)
    (ops : List RxOp) (s : RxRing)
    (hs : Runs.exec (rxStep rxbuf) (rxInit mem packetBuf) ops = some s)
    (hcalls : recieveCalls ops = (storedPackets ops).length) :
    s.delivered = ((storedPackets ops).filter Packet.good).map Packet.payload ↔
      BadLast (storedPackets ops) := by
  have hinv := rxInv_run hs
  have hprog : Progress s ([] ++ storedPackets ops) (0 + recieveCalls ops) :=
    progress_run (RxInv.init ..) ⟨rfl, .inl rfl⟩ hs
  rw [List.nil_append, Nat.zero_add] at hprog
  have hsplit := hprog.split
  have hlen : (storedPackets ops).length = s.received.length + s.unread.length := by
    rw [hsplit, List.length_append]
  rw [hinv.delivered, hsplit, List.filter_append, filter_good hinv.good]
  rcases hprog.count with hk | ⟨hk, p, rest, hu, hp⟩
  · -- every call has passed a packet, so nothing is left
    have hnil : s.unread = [] := List.eq_nil_of_length_eq_zero (by omega)
    rw [hnil, List.filter_nil, List.append_nil]
    exact ⟨fun _ => badLast_of_good hinv.good, fun _ => rfl⟩
  · -- the driver stands before the bad packet `p`, and `rest` is never delivered
    rw [hu, List.filter_cons_of_neg (by simp [hp]), List.map_append, List.self_eq_append_right,
      List.map_eq_nil_iff, List.filter_eq_nil_iff, BadLast, List.pairwise_append, List.pairwise_cons]
    refine ⟨?_, ?_⟩
    · intro hnone
      refine ⟨badLast_of_good hinv.good, ⟨?_, ?_⟩, fun q hq _ _ _ => hinv.good q hq⟩
      · intro q hq hgood
        exact absurd hgood (hnone q hq)
      · exact List.pairwise_of_forall_mem_list (fun _ _ q hq hgood => absurd hgood (hnone q hq))
    · rintro ⟨-, ⟨hhead, -⟩, -⟩ q hq hgood
      rw [hhead q hq hgood] at hp
      cases hp

/-- A good packet of zeros. -/
def plainPacket (len : BitVec 16) : Packet :=
  { status := rxOk, len := len, data := List.replicate len.toNat 0, sized := fun _ => List.length_replicate }

/-- A packet of zeros with a wrong CRC. -/
def crcPacket (len : BitVec 16) : Packet :=
  { status := rxOk ||| rxCrcError, len := len, data := List.replicate len.toNat 0,
    sized := fun _ => List.length_replicate }

/-- The ring before anything arrived, over memory of zeros. -/
def blankRing : RxRing := rxInit (fun _ => 0) (fun _ => 0)

theorem good_packets_delivered_bad_last :
    ∃ s, Runs.exec (rxStep 0x100000) blankRing
        [.store (plainPacket 64), .store (crcPacket 64), .recieve, .recieve] = some s ∧
      s.delivered = [(plainPacket 64).payload] := by
  obtain ⟨s, hs⟩ : ∃ s, Runs.exec (rxStep 0x100000) blankRing
      [.store (plainPacket 64), .store (crcPacket 64), .recieve, .recieve] = some s :=
    Option.isSome_iff_exists.mp (by decide +kernel)
  refine ⟨s, hs, ?_⟩
  rw [(good_packets_delivered_iff 0x100000 _ _ _ s hs rfl).mpr (by decide)]
  rfl

/-- The bad packet is first: neither call delivers anything. -/
theorem bad_packet_blocks_ring :
    ∃ s, Runs.exec (rxStep 0x100000) blankRing
        [.store (crcPacket 64), .store (plainPacket 64), .recieve, .recieve] = some s ∧
      (plainPacket 64).good = true ∧ s.delivered = [] := by
  have h : (Runs.exec (rxStep 0x100000) blankRing
      [.store (crcPacket 64), .store (plainPacket 64), .recieve, .recieve]).any
        (fun s => decide (s.delivered = [])) = true := by decide +kernel
  obtain ⟨s, hs, hnone⟩ := (Option.any_eq_true _ _).mp h
  exact ⟨s, hs, by decide, of_decide_eq_true hnone⟩

/-! Runs in which each packet is received before the next arrives. -/

def feed : List Packet → List RxOp
  | [] => []
  | p :: ps => .store p :: .recieve :: feed ps

/-- The driver is behind everything that was stored. -/
structure CaughtUp (rxbuf : BitVec 64) (s : RxRing) (ps : List Packet) : Prop extends RxInv rxbuf s where
  empty : s.unread = []
  all : s.received = ps

section
variable {rxbuf : BitVec 64} {s : RxRing} {ps : List Packet}

/-- A good packet fits an empty ring, and the call passes it. -/
theorem CaughtUp.feed (h : CaughtUp rxbuf s ps) {p : Packet} (hp : p.good = true) :
    rxStep rxbuf s (.store p) = some (s.store rxbuf p) ∧
      rxStep rxbuf (s.store rxbuf p) .recieve = some ((s.store rxbuf p).call rxbuf) ∧
      CaughtUp rxbuf ((s.store rxbuf p).call rxbuf) (ps ++ [p]) := by
  have hfit : s.Fits p := by
    have hsize := (Packet.good_size hp).2
    rw [RxRing.Fits, h.empty]
    simp only [totalSize, rxBufferSize]
    omega
  have hu : (s.store rxbuf p).unread = [p] := by simp [RxRing.store, h.empty]
  have hinv := h.toRxInv.store hfit
  refine ⟨if_pos hfit, by simp [rxStep, hu], hinv.call (by simp [hu]), ?_, ?_⟩
  · rw [(hinv.call_good hu hp).1]
  · rw [(hinv.call_good hu hp).1, ← h.all]
    rfl

theorem feed_run {qs : List Packet} (h : CaughtUp rxbuf s ps) (hq : ∀ q ∈ qs, q.good = true) :
    ∃ t, Runs.exec (rxStep rxbuf) s (feed qs) = some t ∧ CaughtUp rxbuf t (ps ++ qs) := by
  induction qs generalizing s ps with
  | nil => exact ⟨s, rfl, by rwa [List.append_nil]⟩
  | cons q qs ih =>
    obtain ⟨hstore, hcall, hnext⟩ := h.feed (hq q (by simp))
    obtain ⟨t, ht, hup⟩ := ih hnext (fun r hr => hq r (List.mem_cons_of_mem _ hr))
    refine ⟨t, ?_, by rwa [List.append_assoc] at hup⟩
    exact Runs.exec_cons.mpr ⟨_, hstore, Runs.exec_cons.mpr ⟨_, hcall, ht⟩⟩

theorem feed_from_init (rxbuf : BitVec 64) (mem : Mem) (packetBuf : Nat → BitVec 8)
    (hp : ∀ p ∈ ps, p.good = true) :
    ∃ s, Runs.exec (rxStep rxbuf) (rxInit mem packetBuf) (feed ps) = some s ∧ CaughtUp rxbuf s ps :=
  feed_run ⟨RxInv.init .., rfl, rfl⟩ hp

/-- The ring with the packets `ps` received and `q` waiting. -/
theorem feed_then_store (rxbuf : BitVec 64) (mem : Mem) (packetBuf : Nat → BitVec 8) {q : Packet}
    (hp : ∀ p ∈ ps, p.good = true) (hq : q.good = true) :
    ∃ s, Runs.exec (rxStep rxbuf) (rxInit mem packetBuf) (feed ps ++ [.store q]) = some s ∧
      s.unread = [q] ∧ s.received = ps := by
  obtain ⟨s, hs, hup⟩ := feed_from_init rxbuf mem packetBuf hp
  obtain ⟨hstore, -⟩ := hup.feed hq
  refine ⟨s.store rxbuf q, Runs.exec_append.mpr ⟨s, hs, Runs.exec_cons.mpr ⟨_, hstore, rfl⟩⟩, ?_, hup.all⟩
  simp [RxRing.store, hup.empty]

end

/-! Driver and device. -/

/-- The driver's offset, a signed number, is a multiple of 4 inside the ring
    and the device's. -/
structure InStep (s : RxRing) : Prop where
  aligned : s.driver.rxbufOffset.toInt % 4 = 0
  lower : 0 ≤ s.driver.rxbufOffset.toInt
  upper : s.driver.rxbufOffset.toInt < rxBufferSize
  agree : s.driver.rxbufOffset.toInt = s.deviceOffset

/-- What a call for the packet `p` does: `offset` is `rxbuf_offset` after it,
    `before` what `packet_buf` held. The first `len - 4` bytes of `packet_buf`
    are the packet's, and the others are left as they were. -/
structure CallOk (p : Packet) (before : Nat → BitVec 8) (offset : Int) (c : RxCall) : Prop where
  capr : c.capr.map (fun v => (v.toNat : Int)) = some ((offset - 16) % 0x10000)
  copied : c.copied = some (p.len.toNat - 4)
  payload : (List.range (p.len.toNat - 4)).map c.driver.packetBuf = p.payload
  rest : ∀ i, p.len.toNat - 4 ≤ i → c.driver.packetBuf i = before i
  nonempty : 1 ≤ p.len.toNat - 4
  bounded : p.len.toNat - 4 ≤ packetSizeMax

theorem CaughtUp.inStep {rxbuf : BitVec 64} {s : RxRing} {ps : List Packet} (h : CaughtUp rxbuf s ps) :
    InStep s := by
  have hlt := h.offset_lt
  have hmod := h.offset_mod
  -- `rxbuf_offset` is signed, but never negative
  have hint : s.driver.rxbufOffset.toInt = s.driver.rxbufOffset.toNat := by
    simp only [rxBufferSize] at hlt
    exact BitVec.toInt_eq_toNat_of_lt (by omega)
  refine ⟨?_, ?_, ?_, ?_⟩
  · rw [hint]
    omega
  · rw [hint]
    omega
  · rw [hint]
    omega
  · rw [hint, h.device, h.empty, totalSize, Nat.add_zero,
      Nat.mod_eq_of_lt hlt]

/-- CAPR gets the offset less 16, in 16 bits. -/
theorem capr_value {offset : BitVec 64} (h : offset.toNat < rxBufferSize) :
    (((offset - 0x10).setWidth 16).toNat : Int) = (offset.toInt - 16) % 0x10000 := by
  simp only [rxBufferSize] at h
  have hint : offset.toInt = offset.toNat := BitVec.toInt_eq_toNat_of_lt (by omega)
  have hsub : (offset - 0x10).toNat = (2^64 - 16 + offset.toNat) % 2^64 := BitVec.toNat_sub ..
  rw [hint, BitVec.toNat_setWidth, hsub]
  omega

/-- **Driver and device agree.** For every sequence of good packets, each
    followed by `recieve`, the two offsets are equal, aligned and inside the
    ring, and the next call writes the offset less 16 to CAPR and copies the
    `len - 4` bytes of the packet, which fit `packet_buf`. -/
theorem driver_in_step (rxbuf : BitVec 64) (mem : Mem) (packetBuf : Nat → BitVec 8)
    (ps : List Packet) (hp : ∀ p ∈ ps, p.good = true) :
    ∃ s, Runs.exec (rxStep rxbuf) (rxInit mem packetBuf) (feed ps) = some s ∧ InStep s ∧
      ∀ q, q.good = true → ∃ t u, rxStep rxbuf s (.store q) = some t ∧
        rxStep rxbuf t .recieve = some u ∧ InStep u ∧
        u.driver = (recieve t.mem rxbuf t.driver).driver ∧
        CallOk q t.driver.packetBuf u.driver.rxbufOffset.toInt (recieve t.mem rxbuf t.driver) := by
  obtain ⟨s, hs, hup⟩ := feed_from_init rxbuf mem packetBuf hp
  refine ⟨s, hs, hup.inStep, ?_⟩
  intro q hq
  obtain ⟨hstore, hcall, hnext⟩ := hup.feed hq
  have hinv : RxInv rxbuf (s.store rxbuf q) := rxInv_step hup.toRxInv hstore
  have hu : (s.store rxbuf q).unread = [q] := by simp [RxRing.store, hup.empty]
  obtain ⟨heq, hacc⟩ := hinv.call_good hu hq
  have hdriver : ((s.store rxbuf q).call rxbuf).driver =
      (recieve (s.store rxbuf q).mem rxbuf (s.store rxbuf q).driver).driver := by rw [heq]
  obtain ⟨-, hmin, hmax⟩ := Packet.good_len hq
  refine ⟨_, _, hstore, hcall, hnext.inStep, hdriver, ?_, hacc.copied, hacc.payload, ?_, by omega, ?_⟩
  · rw [hacc.capr, Option.map_some, hdriver, capr_value]
    rw [← hdriver]
    exact hnext.offset_lt
  · intro i hi
    exact recieve_rest hacc.copied hi
  · rw [packetSizeMax]
    omega

/-- A third packet, into a `packet_buf` of ones: its 96 zeros are copied. -/
theorem driver_in_step_two_lengths :
    ∃ s t u, Runs.exec (rxStep 0x100000) (rxInit (fun _ => 0) (fun _ => 0xFF))
        (feed [plainPacket 64, plainPacket 0x5ff]) = some s ∧ InStep s ∧
      rxStep 0x100000 s (.store (plainPacket 100)) = some t ∧ rxStep 0x100000 t .recieve = some u ∧ InStep u ∧
      (List.range 96).map u.driver.packetBuf = List.replicate 96 0 ∧
      CallOk (plainPacket 100) t.driver.packetBuf u.driver.rxbufOffset.toInt (recieve t.mem 0x100000 t.driver) := by
  obtain ⟨s, hs, hin, hnext⟩ := driver_in_step 0x100000 (fun _ => 0) (fun _ => 0xFF)
    [plainPacket 64, plainPacket 0x5ff] (by decide)
  obtain ⟨t, u, hstore, hcall, hin', hdriver, hok⟩ := hnext (plainPacket 100) (by decide)
  refine ⟨s, t, u, hs, hin, hstore, hcall, hin', ?_, hok⟩
  rw [hdriver]
  exact hok.payload.trans (by decide)

/-! The bytes the driver reads. -/

/-- All of the block of `n` bytes at distance `off` is inside the ring's buffer
    iff it ends there. -/
theorem inside_buffer_iff {rxbuf : BitVec 64} {off n : Nat} (hoff : off < rxBufferSize) (hn : 0 < n)
    (hmax : n < 2^16) :
    (∀ a, Inside (rxbuf + BitVec.ofNat 64 off) n a → Inside rxbuf rxBufferSize a) ↔
      off + n ≤ rxBufferSize := by
  simp only [rxBufferSize, Inside] at hoff ⊢
  refine ⟨?_, ?_⟩
  · intro h
    -- the last byte of the block
    have := h (rxbuf + BitVec.ofNat 64 off + BitVec.ofNat 64 (n - 1)) (by bv_omega)
    bv_omega
  · intro h a ha
    bv_omega

/-- **Reads inside the buffer.** In every state the ring can reach, `recieve`
    accepts the next good packet with all its reads inside the
    `RX_BUFFER_SIZE` bytes of `rxbuf` exactly when the packet does not run past
    their end; the offset it starts from is the space taken by the packets
    received so far, modulo the size. -/
theorem reads_inside_iff (rxbuf : BitVec 64) (mem : Mem) (packetBuf : Nat → BitVec 8)
    (ops : List RxOp) (s : RxRing) (p : Packet) (rest : List Packet)
    (hs : Runs.exec (rxStep rxbuf) (rxInit mem packetBuf) ops = some s)
    (hu : s.unread = p :: rest) (hp : p.good = true) :
    (∀ a ∈ (recieve s.mem rxbuf s.driver).reads, Inside rxbuf rxBufferSize a) ↔
      totalSize s.received % rxBufferSize + p.len.toNat ≤ rxBufferSize := by
  have hinv := rxInv_run hs
  obtain ⟨-, hmin, hmax⟩ := Packet.good_len hp
  have hacc := (hinv.call_good hu hp).2
  simp only [hacc.reads]
  rw [inside_buffer_iff hinv.offset_lt (by omega) (by omega), hinv.driver]

theorem reads_inside_second_packet :
    ∃ s, Runs.exec (rxStep 0x100000) blankRing (feed [plainPacket 64] ++ [.store (plainPacket 100)]) =
        some s ∧
      ∀ a ∈ (recieve s.mem 0x100000 s.driver).reads, Inside 0x100000 rxBufferSize a := by
  obtain ⟨s, hs, hu, hr⟩ := @feed_then_store [plainPacket 64] 0x100000 (fun _ => 0) (fun _ => 0)
    (plainPacket 100) (by decide) (by decide)
  refine ⟨s, hs, (reads_inside_iff _ _ _ _ s _ [] hs hu (by decide)).mpr ?_⟩
  rw [hr]
  decide

/-- After 21 packets of 1528 bytes the next one starts at offset 32172, and
    `recieve` reads the byte after the buffer. -/
theorem read_past_buffer :
    ∃ s, Runs.exec (rxStep 0x100000) blankRing
        (feed (List.replicate 21 (plainPacket 1528)) ++ [.store (plainPacket 1528)]) = some s ∧
      (recieve s.mem 0x100000 s.driver).copied = some 1524 ∧
      0x108000 ∈ (recieve s.mem 0x100000 s.driver).reads ∧ ¬ Inside 0x100000 rxBufferSize 0x108000 := by
  have hgood : (plainPacket 1528).good = true := by decide
  obtain ⟨s, hs, hu, hr⟩ := @feed_then_store (List.replicate 21 (plainPacket 1528)) 0x100000
    (fun _ => 0) (fun _ => 0) (plainPacket 1528) (fun p hp => (List.eq_of_mem_replicate hp) ▸ hgood) hgood
  have hinv := rxInv_run hs
  have hacc := (hinv.call_good hu hgood).2
  have hoff : s.driver.rxbufOffset.toNat = 32172 := by
    have hsize : (plainPacket 1528).size = 1532 := by
      rw [(Packet.good_size hgood).1]
      rfl
    rw [hinv.driver, hr]
    simp only [List.replicate, totalSize, hsize, rxBufferSize]
  refine ⟨s, hs, hacc.copied, ?_, by decide⟩
  rw [hacc.reads, hoff]
  decide

end Qnixx
