import Mathlib.Algebra.Group.Nat.Defs
import Qnixx.Lib.Runs
import Qnixx.Rtl8139

/- The receive ring between the RTL8139 and the driver. The device stores a
   packet (header, then data) at its own offset without wrapping in the middle
   (`RXCFG_WRAP_INHIBIT`), advances to the next multiple of 4 modulo the ring
   size, and stores nothing over a packet the driver has not passed. The lists
   `unread`, `received` and `delivered` are there for the statements: they say
   which packets the driver's offset has not passed, which it has, and what
   `packet_buf` held after each call that copied. -/
namespace Qnixx
open ByteMem

/-- A packet as the device stores it. The length field of a good one is the
    number of bytes that follow the header, the CRC included. -/
structure Packet where
  status : BitVec 16
  len : BitVec 16
  data : List (BitVec 8)
  sized : rejects status len = false → data.length = len.toNat

namespace Packet

def good (p : Packet) : Bool := !rejects p.status p.len

def bytes (p : Packet) : List (BitVec 8) := bytes16 p.status ++ bytes16 p.len ++ p.data

/-- The data without the CRC. -/
def payload (p : Packet) : List (BitVec 8) := p.data.take (p.len.toNat - 4)

/-- What the packet takes of the ring: up to the next multiple of 4. -/
def size (p : Packet) : Nat := (p.data.length + 4 + 3) / 4 * 4

theorem bytes_length (p : Packet) : p.bytes.length = p.data.length + 4 := by
  simp [bytes, bytes16]

theorem bytes_le_size (p : Packet) : p.bytes.length ≤ p.size := by
  rw [p.bytes_length, size]
  omega

theorem size_mod (p : Packet) : p.size % 4 = 0 := by
  rw [size]
  omega

theorem good_len {p : Packet} (h : p.good = true) :
    p.data.length = p.len.toNat ∧ 0x16 ≤ p.len.toNat ∧ p.len.toNat < 0x600 := by
  have hr : rejects p.status p.len = false := by simpa [good] using h
  refine ⟨p.sized hr, ?_⟩
  simp only [rejects, Bool.or_eq_false_iff, decide_eq_false_iff_not] at hr
  obtain ⟨⟨-, hmax⟩, hmin⟩ := hr
  simp only [packetSizeMax, packetSizeMin] at hmax hmin
  omega

theorem good_size {p : Packet} (h : p.good = true) :
    p.size = (p.len.toNat + 7) / 4 * 4 ∧ p.size ≤ 0x608 := by
  obtain ⟨hd, -, hmax⟩ := good_len h
  rw [size, hd]
  omega

end Packet

/-- The device's offset after a packet. -/
def deviceAdvance (off : Nat) (p : Packet) : Nat :=
  (off + 4 + p.data.length + 3) / 4 * 4 % rxBufferSize

/-- The space a list of packets takes. -/
def totalSize : List Packet → Nat
  | [] => 0
  | p :: ps => p.size + totalSize ps

structure RxRing where
  mem : Mem
  deviceOffset : Nat
  driver : RxDriver
  unread : List Packet
  received : List Packet
  delivered : List (List (BitVec 8))

/-- After `startup_nic`: nothing stored, both offsets 0. -/
def rxInit (mem : Mem) (packetBuf : Nat → BitVec 8) : RxRing :=
  { mem := mem
    deviceOffset := 0
    driver := { rxbufOffset := 0, packetBuf := packetBuf }
    unread := []
    received := []
    delivered := [] }

namespace RxRing

/-- The packet goes into the space the unread ones leave. -/
def Fits (s : RxRing) (p : Packet) : Prop := totalSize s.unread + p.size ≤ rxBufferSize

instance (s : RxRing) (p : Packet) : Decidable (s.Fits p) :=
  inferInstanceAs (Decidable (totalSize s.unread + p.size ≤ rxBufferSize))

/-- The device stores a packet. -/
def store (rxbuf : BitVec 64) (s : RxRing) (p : Packet) : RxRing :=
  { s with
    mem := storeBytes s.mem (rxbuf + BitVec.ofNat 64 s.deviceOffset) p.bytes
    deviceOffset := deviceAdvance s.deviceOffset p
    unread := s.unread ++ [p] }

/-- The driver calls `recieve`. -/
def call (rxbuf : BitVec 64) (s : RxRing) : RxRing :=
  let c := Qnixx.recieve s.mem rxbuf s.driver
  match c.copied with
  | none => { s with driver := c.driver }
  | some n =>
    -- the offset has moved: the packet at its old place is received
    { s with
      driver := c.driver
      unread := s.unread.tail
      received := s.received ++ s.unread.take 1
      delivered := s.delivered ++ [(List.range n).map c.driver.packetBuf] }

end RxRing

inductive RxOp where
  | store (p : Packet)
  | recieve

/-- One step of the device or the driver. `recieve` is called for a packet
    that is there. -/
def rxStep (rxbuf : BitVec 64) (s : RxRing) : RxOp → Option RxRing
  | .store p => if s.Fits p then some (s.store rxbuf p) else none
  | .recieve => if s.unread.isEmpty then none else some (s.call rxbuf)

/-! One call on a packet in memory. -/

/-- The bytes of a packet in memory are the header `recieve` reads and the
    data. -/
theorem Packet.read {m : Mem} {a : BitVec 64} {p : Packet} (h : Holds m a p.bytes) :
    load16 m a = p.status ∧ load16 m (a + 2) = p.len ∧ Holds m (a + 4) p.data := by
  obtain ⟨hhead, hdata⟩ := holds_append.mp h
  obtain ⟨hs, hl⟩ := holds_append.mp hhead
  exact ⟨hs.load16, hl.load16, hdata⟩

/-- What a call does with a good packet at offset `off`. -/
structure Accepted (rxbuf : BitVec 64) (off : Nat) (p : Packet) (c : RxCall) : Prop where
  offset : c.driver.rxbufOffset.toNat = (off + p.size) % rxBufferSize
  copied : c.copied = some (p.len.toNat - 4)
  payload : (List.range (p.len.toNat - 4)).map c.driver.packetBuf = p.payload
  capr : c.capr = some ((c.driver.rxbufOffset - 0x10).setWidth 16)
  reads : ∀ a, a ∈ c.reads ↔ Inside (rxbuf + BitVec.ofNat 64 off) p.len.toNat a

section
variable {m : Mem} {rxbuf : BitVec 64} {d : RxDriver} {p : Packet}

theorem recieve_bad (h : Holds m (rxbuf + d.rxbufOffset) p.bytes) (hp : p.good = false) :
    (recieve m rxbuf d).driver = d ∧ (recieve m rxbuf d).copied = none := by
  obtain ⟨hs, hl, -⟩ := Packet.read h
  have hr : rejects p.status p.len = true := by simpa [Packet.good] using hp
  simp only [recieve, hs, hl, hr, if_true]
  exact ⟨trivial, trivial⟩

/-- A call writes no more of `packet_buf` than it copies. -/
theorem recieve_rest {n i : Nat} (h : (recieve m rxbuf d).copied = some n) (hi : n ≤ i) :
    (recieve m rxbuf d).driver.packetBuf i = d.packetBuf i := by
  rw [recieve] at h ⊢
  dsimp only at h ⊢
  split at h
  · cases h
  · next hok =>
    obtain rfl := Option.some.inj h
    rw [if_neg hok]
    exact (memcpy_eq ..).trans (if_neg (Nat.not_lt.mpr hi))

/-- The four header bytes and the `n` bytes after them are the `n + 4` bytes
    from the packet on. -/
theorem mem_reads {a x : BitVec 64} {n : Nat} (hn : n < 2^16) :
    x ∈ [a, a + 1, a + 2, a + 3] ++ (List.range n).map (fun i => a + 4 + BitVec.ofNat 64 i) ↔
      Inside a (n + 4) x := by
  simp only [List.mem_append, List.mem_cons, List.not_mem_nil, or_false, List.mem_map, List.mem_range,
    Inside]
  refine ⟨?_, ?_⟩
  · rintro ((rfl | rfl | rfl | rfl) | ⟨i, hi, rfl⟩) <;> bv_omega
  · intro hx
    by_cases h4 : (x - a).toNat < 4
    · left
      bv_omega
    · right
      refine ⟨(x - a).toNat - 4, by omega, ?_⟩
      bv_omega

theorem recieve_good (hoff : d.rxbufOffset.toNat < rxBufferSize) (hal : d.rxbufOffset.toNat % 4 = 0)
    (h : Holds m (rxbuf + d.rxbufOffset) p.bytes) (hp : p.good = true) :
    Accepted rxbuf d.rxbufOffset.toNat p (recieve m rxbuf d) := by
  obtain ⟨hs, hl, hdata⟩ := Packet.read h
  have hr : rejects p.status p.len = false := by simpa [Packet.good] using hp
  obtain ⟨hlen, hmin, hmax⟩ := Packet.good_len hp
  have hnext := @nextOffset_toNat d.rxbufOffset p.len hoff
  have hlt : (nextOffset d.rxbufOffset p.len).toNat < rxBufferSize := by
    rw [hnext]
    exact mod_rxBufferSize_lt _
  -- the second reduction modulo the size changes nothing
  have hsame : (nextOffset d.rxbufOffset p.len).srem (BitVec.ofNat 64 rxBufferSize) =
      nextOffset d.rxbufOffset p.len := by
    apply BitVec.eq_of_toNat_eq
    rw [srem_toNat (by simp only [rxBufferSize] at hlt; omega), Nat.mod_eq_of_lt hlt]
  simp only [recieve, hs, hl, hr, Bool.false_eq_true, if_false, hsame]
  refine ⟨?_, rfl, ?_, rfl, ?_⟩
  · rw [hnext, (Packet.good_size hp).1]
    congr 1
    omega
  · rw [Packet.payload, ← hdata.loadBytes (by omega), loadBytes]
    apply List.map_congr_left
    intro i hi
    exact (memcpy_eq ..).trans (if_pos (List.mem_range.mp hi))
  · intro a
    rw [mem_reads (by omega), BitVec.ofNat_toNat, BitVec.setWidth_eq]
    simp only [show p.len.toNat - 4 + 4 = p.len.toNat by omega]

end

/-! The packets in the ring. -/

/-- The packets `ps` lie in the ring from offset `off` on. -/
def Laid (m : Mem) (rxbuf : BitVec 64) : Nat → List Packet → Prop
  | _, [] => True
  | off, p :: ps => Holds m (rxbuf + BitVec.ofNat 64 off) p.bytes ∧
      Laid m rxbuf ((off + p.size) % rxBufferSize) ps

theorem totalSize_append (ps qs : List Packet) :
    totalSize (ps ++ qs) = totalSize ps + totalSize qs := by
  induction ps with
  | nil => rw [List.nil_append, totalSize, Nat.zero_add]
  | cons p ps ih => rw [List.cons_append, totalSize, totalSize, ih, Nat.add_assoc]

theorem totalSize_mod (ps : List Packet) : totalSize ps % 4 = 0 := by
  induction ps with
  | nil => rfl
  | cons p ps ih =>
    rw [totalSize]
    have := p.size_mod
    omega

theorem deviceAdvance_aligned {off : Nat} {p : Packet} (h : off % 4 = 0) :
    deviceAdvance off p = (off + p.size) % rxBufferSize := by
  rw [deviceAdvance, Packet.size]
  congr 1
  omega

/-- A packet stored behind the packets of the ring, in the space they leave,
    touches none of them. -/
theorem laid_store {m : Mem} {rxbuf : BitVec 64} {q : Packet} {ps : List Packet} {off dev : Nat}
    (h : Laid m rxbuf off ps) (hoff : off < rxBufferSize)
    (hdev : dev = (off + totalSize ps) % rxBufferSize)
    (hfit : totalSize ps + q.size ≤ rxBufferSize) :
    Laid (storeBytes m (rxbuf + BitVec.ofNat 64 dev) q.bytes) rxbuf off ps := by
  induction ps generalizing off with
  | nil => exact trivial
  | cons p ps ih =>
    obtain ⟨hp, hps⟩ := h
    rw [totalSize] at hdev hfit
    refine ⟨hp.storeBytes_apart ?_, ih hps (mod_rxBufferSize_lt _) ?_ (by omega)⟩
    · intro i hi
      have hpsize := p.bytes_le_size
      have hqsize := q.bytes_le_size
      -- `dev` is behind the end of `p`, or has wrapped and ends before its start
      have hapart : off + p.size ≤ dev ∨ dev + q.size ≤ off := by
        simp only [rxBufferSize] at hdev hfit hoff
        omega
      have hdevlt : dev < rxBufferSize := hdev ▸ mod_rxBufferSize_lt _
      simp only [rxBufferSize] at hdevlt hoff hfit
      simp only [Inside, Nat.not_lt]
      bv_omega
    · rw [hdev]
      simp only [rxBufferSize]
      omega

theorem laid_append {m : Mem} {rxbuf : BitVec 64} {ps qs : List Packet} {off : Nat}
    (hoff : off < rxBufferSize) : Laid m rxbuf off (ps ++ qs) ↔
      Laid m rxbuf off ps ∧ Laid m rxbuf ((off + totalSize ps) % rxBufferSize) qs := by
  induction ps generalizing off with
  | nil => simp [Laid, totalSize, Nat.mod_eq_of_lt hoff]
  | cons p ps ih =>
    have hend : ((off + p.size) % rxBufferSize + totalSize ps) % rxBufferSize =
        (off + totalSize (p :: ps)) % rxBufferSize := by
      calc ((off + p.size) % rxBufferSize + totalSize ps) % rxBufferSize
          = (off + p.size + totalSize ps) % rxBufferSize := Nat.mod_add_mod ..
        _ = (off + totalSize (p :: ps)) % rxBufferSize := by rw [totalSize, Nat.add_assoc]
    rw [List.cons_append, Laid, Laid, ih (mod_rxBufferSize_lt _), hend, and_assoc]

/-- What holds between any two steps. The driver's offset is where the first
    unread packet lies, the device's is behind the last. -/
structure RxInv (rxbuf : BitVec 64) (s : RxRing) : Prop where
  laid : Laid s.mem rxbuf s.driver.rxbufOffset.toNat s.unread
  space : totalSize s.unread ≤ rxBufferSize
  device : s.deviceOffset = (s.driver.rxbufOffset.toNat + totalSize s.unread) % rxBufferSize
  driver : s.driver.rxbufOffset.toNat = totalSize s.received % rxBufferSize
  good : ∀ p ∈ s.received, p.good = true
  delivered : s.delivered = s.received.map Packet.payload

namespace RxInv
variable {rxbuf : BitVec 64} {s : RxRing}

theorem offset_lt (h : RxInv rxbuf s) : s.driver.rxbufOffset.toNat < rxBufferSize :=
  h.driver ▸ mod_rxBufferSize_lt _

theorem offset_mod (h : RxInv rxbuf s) : s.driver.rxbufOffset.toNat % 4 = 0 := by
  have := totalSize_mod s.received
  rw [h.driver, rxBufferSize]
  omega

theorem device_mod (h : RxInv rxbuf s) : s.deviceOffset % 4 = 0 := by
  have := totalSize_mod s.unread
  have := h.offset_mod
  rw [h.device, rxBufferSize]
  omega

theorem init (rxbuf : BitVec 64) (mem : Mem) (packetBuf : Nat → BitVec 8) :
    RxInv rxbuf (rxInit mem packetBuf) :=
  ⟨trivial, Nat.zero_le _, rfl, rfl, by simp [rxInit], rfl⟩

theorem store (h : RxInv rxbuf s) {p : Packet} (hfit : s.Fits p) : RxInv rxbuf (s.store rxbuf p) := by
  have hlaid := laid_store h.laid h.offset_lt h.device hfit
  have hbytes : p.bytes.length ≤ 2^64 := by
    have hb := p.bytes_le_size
    simp only [RxRing.Fits, rxBufferSize] at hfit
    omega
  refine ⟨?_, ?_, ?_, h.driver, h.good, h.delivered⟩
  · refine (laid_append h.offset_lt).mpr ⟨hlaid, ?_, trivial⟩
    rw [← h.device]
    exact holds_storeBytes _ _ hbytes
  · show totalSize (s.unread ++ [p]) ≤ rxBufferSize
    rw [totalSize_append, totalSize]
    exact hfit
  · show deviceAdvance s.deviceOffset p =
      (s.driver.rxbufOffset.toNat + totalSize (s.unread ++ [p])) % rxBufferSize
    rw [deviceAdvance_aligned h.device_mod, h.device, Nat.mod_add_mod, totalSize_append, totalSize,
      Nat.add_assoc]
    rfl

/-- The call for a packet that is there: it passes a good one and delivers its
    payload. -/
theorem call_good (h : RxInv rxbuf s) {p : Packet} {rest : List Packet} (hu : s.unread = p :: rest)
    (hp : p.good = true) : s.call rxbuf =
      { s with
        driver := (recieve s.mem rxbuf s.driver).driver
        unread := rest
        received := s.received ++ [p]
        delivered := s.delivered ++ [p.payload] } ∧
    Accepted rxbuf s.driver.rxbufOffset.toNat p (recieve s.mem rxbuf s.driver) := by
  have hlaid := h.laid
  rw [hu, Laid, BitVec.ofNat_toNat, BitVec.setWidth_eq] at hlaid
  have hacc := recieve_good h.offset_lt h.offset_mod hlaid.1 hp
  refine ⟨?_, hacc⟩
  simp only [RxRing.call, hacc.copied, hacc.payload, hu, List.tail_cons, List.take_succ_cons,
    List.take_zero]

/-- A bad packet stays where it is, and so does the driver. -/
theorem call_bad (h : RxInv rxbuf s) {p : Packet} {rest : List Packet} (hu : s.unread = p :: rest)
    (hp : p.good = false) : s.call rxbuf = s := by
  have hlaid := h.laid
  rw [hu, Laid, BitVec.ofNat_toNat, BitVec.setWidth_eq] at hlaid
  obtain ⟨hdriver, hcopied⟩ := recieve_bad hlaid.1 hp
  simp only [RxRing.call, hcopied, hdriver]

theorem call (h : RxInv rxbuf s) (hu : s.unread ≠ []) : RxInv rxbuf (s.call rxbuf) := by
  cases hunread : s.unread with
  | nil => exact absurd hunread hu
  | cons p rest =>
    cases hp : p.good with
    | false =>
      -- `recieve` returns before it moves `rxbuf_offset`
      rw [h.call_bad hunread hp]
      exact h
    | true =>
      obtain ⟨hcall, hacc⟩ := h.call_good hunread hp
      have hlaid := h.laid
      have hspace := h.space
      rw [hunread, Laid] at hlaid
      rw [hunread, totalSize] at hspace
      rw [hcall]
      -- one goal for each field of the invariant, in its order
      refine ⟨?_, ?_, ?_, ?_, ?_, ?_⟩
      · show Laid s.mem rxbuf (recieve s.mem rxbuf s.driver).driver.rxbufOffset.toNat rest
        rw [hacc.offset]
        exact hlaid.2
      · exact Nat.le_trans (Nat.le_add_left ..) hspace
      · show s.deviceOffset =
          ((recieve s.mem rxbuf s.driver).driver.rxbufOffset.toNat + totalSize rest) % rxBufferSize
        rw [hacc.offset, Nat.mod_add_mod, Nat.add_assoc, ← totalSize, ← hunread]
        exact h.device
      · show (recieve s.mem rxbuf s.driver).driver.rxbufOffset.toNat =
          totalSize (s.received ++ [p]) % rxBufferSize
        rw [hacc.offset, h.driver, Nat.mod_add_mod, totalSize_append, totalSize]
        rfl
      · intro q hq
        rcases List.mem_append.mp hq with hq | hq
        · exact h.good q hq
        · rw [List.mem_singleton.mp hq, hp]
      · show s.delivered ++ [p.payload] = (s.received ++ [p]).map Packet.payload
        rw [h.delivered, List.map_append, List.map_singleton]

end RxInv

/-- The two steps, with their guards. -/
theorem rxStep_cases {rxbuf : BitVec 64} {s t : RxRing} {op : RxOp} (h : rxStep rxbuf s op = some t) :
    (∃ p, op = .store p ∧ s.Fits p ∧ t = s.store rxbuf p) ∨
      (op = .recieve ∧ s.unread ≠ [] ∧ t = s.call rxbuf) := by
  cases op with
  | store p =>
    simp only [rxStep, Option.ite_none_right_eq_some, Option.some.injEq] at h
    exact .inl ⟨p, rfl, h.1, h.2.symm⟩
  | recieve =>
    simp only [rxStep, Option.ite_none_left_eq_some, Option.some.injEq] at h
    exact .inr ⟨rfl, by simpa using h.1, h.2.symm⟩

theorem rxInv_step {rxbuf : BitVec 64} {s t : RxRing} {op : RxOp} (h : RxInv rxbuf s)
    (hs : rxStep rxbuf s op = some t) : RxInv rxbuf t := by
  obtain ⟨p, -, hfit, rfl⟩ | ⟨-, hu, rfl⟩ := rxStep_cases hs
  · exact h.store hfit
  · exact h.call hu

theorem rxInv_run {rxbuf : BitVec 64} {mem : Mem} {packetBuf : Nat → BitVec 8} {ops : List RxOp}
    {s : RxRing} (h : Runs.exec (rxStep rxbuf) (rxInit mem packetBuf) ops = some s) : RxInv rxbuf s :=
  Runs.exec_inv (fun _ _ _ hp hs => rxInv_step hp hs) (RxInv.init ..) h

end Qnixx
