import Qnixx.GetPhys
import Qnixx.LibKern
import Qnixx.Rtl8139

/- The transmit path of the RTL8139 driver (`dev/net/rtl8139.c`): the loop of
   `startup_nic` that stores where the buffers are, and `rtl8139_send_packet`,
   which looks for a free descriptor, clears its buffer, copies the packet there
   and writes the size to the descriptor's status register. A call is described
   by the state it leaves and by what it did: the descriptor, the addresses
   written in memory and the writes to ports. -/
namespace Qnixx
open ByteMem

/-- `TX_BUFFER_SIZE`, `TX_BUFFER_COUNT`, `REG_TXSTATUS0` and `TX_STATUS_OWN`. -/
def txBufferSize : Nat := packetSizeMax
def txBufferCount : Nat := 4
def regTxstatus0 : Nat := 0x10
def txStatusOwn : BitVec 32 := 0x2000

structure TxDriver where
  iobase : BitVec 32
  /-- `txbufs[0]` to `txbufs[3]`, with the bytes in front of and behind them. -/
  txbufs : Int → BitVec 8
  nextTxbuf : BitVec 64

/-- The loop of `startup_nic` over the buffers; `kmalloc i` is the call for
    buffer `i`. `vmm_get_phys` returns 64 bits, an element of `txbufs` has 8. -/
def setupTxbufs (kmalloc : Nat → Vm → Vm × BitVec 64) (s : Vm) (txbufs : Int → BitVec 8) :
    Nat → Option (Vm × (Int → BitVec 8))
  | 0 => some (s, txbufs)
  | i + 1 => do
    let (s, txbufs) ← setupTxbufs kmalloc s txbufs i
    let (s, virt) := kmalloc i s
    let (s, phys) ← vmmGetPhys s virt
    some (s, Function.update txbufs i (phys.setWidth 8))

/-- `PORT(REG_TXSTATUS0 + (hwbuf * 4))`; a port has 16 bits. -/
def txStatusPort (iobase : BitVec 32) (hwbuf : Int) : BitVec 16 :=
  BitVec.ofInt 16 (iobase.toNat + regTxstatus0 + hwbuf * 4)

def canidate (d : TxDriver) (i : Nat) : Nat := ((d.nextTxbuf + BitVec.ofNat 64 i) % 4).toNat

/-- The loop that looks for a descriptor, from `i` on; `inl` is what the device
    answers. -/
def findTxbuf (inl : BitVec 16 → BitVec 32) (d : TxDriver) (i : Nat) : Nat → Int
  | 0 => -1
  | n + 1 =>
    if inl (txStatusPort d.iobase (canidate d i)) &&& txStatusOwn ≠ 0 then canidate d i
    else findTxbuf inl d (i + 1) n

/-- What one call of `rtl8139_send_packet` did. -/
structure TxCall where
  driver : TxDriver
  mem : Mem
  /-- The index into `txbufs`. -/
  hwbuf : Option Int
  writes : List (BitVec 64)
  outl : List (BitVec 16 × BitVec 32)

/-- The addresses of `n` bytes. -/
def byteAddrs (base : BitVec 64) (n : Nat) : List (BitVec 64) :=
  (List.range n).map (fun i => base + BitVec.ofNat 64 i)

/-- `ALIGN_DOWN(virt_addr, 0x1000)` for the buffer of a descriptor. -/
def txBase (higherHalf : BitVec 64) (d : TxDriver) (hwbuf : Int) : BitVec 64 :=
  alignDown ((d.txbufs hwbuf).setWidth 64 + higherHalf) 0x1000#64

def paddedSize (size : BitVec 64) : BitVec 64 := if size < 60 then 60 else size

def rtl8139SendPacket (higherHalf : BitVec 64) (inl : BitVec 16 → BitVec 32) (m : Mem) (d : TxDriver)
    (data size : BitVec 64) : TxCall :=
  if d.iobase = 0 then { driver := d, mem := m, hwbuf := none, writes := [], outl := [] }
  else
    -- nothing is done about a search without result: -1 goes on as an index
    let hwbuf := findTxbuf inl d 0 txBufferCount
    let size := paddedSize size
    let base := txBase higherHalf d hwbuf
    let cleared := (BitVec.ofNat 64 txBufferSize - size).toNat
    { driver := { d with nextTxbuf := BitVec.ofInt 64 ((hwbuf + 1).tmod 4) }
      mem := memcpyMem (memzero m base cleared) base data size.toNat
      hwbuf := some hwbuf
      writes := byteAddrs base cleared ++ byteAddrs base size.toNat
      outl := [(txStatusPort d.iobase hwbuf, size.setWidth 32)] }

/-! The search. -/

/-- The card is there and descriptor `c` is free. -/
def DescriptorFree (inl : BitVec 16 → BitVec 32) (d : TxDriver) (c : Nat) : Prop :=
  d.iobase ≠ 0 ∧ inl (txStatusPort d.iobase c) &&& txStatusOwn ≠ 0

instance (inl : BitVec 16 → BitVec 32) (d : TxDriver) (c : Nat) : Decidable (DescriptorFree inl d c) :=
  inferInstanceAs (Decidable (_ ∧ _))

/-- Descriptor `c` is the first free one in cyclic order from `next_txbuf`. -/
def FirstFree (inl : BitVec 16 → BitVec 32) (d : TxDriver) (c : Nat) : Prop :=
  ∃ k, k < txBufferCount ∧ c = (d.nextTxbuf.toNat + k) % txBufferCount ∧ DescriptorFree inl d c ∧
    ∀ j, j < k → ¬ DescriptorFree inl d ((d.nextTxbuf.toNat + j) % txBufferCount)

section
variable {inl : BitVec 16 → BitVec 32} {d : TxDriver}

theorem canidate_eq (d : TxDriver) (i : Nat) : canidate d i = (d.nextTxbuf.toNat + i) % txBufferCount := by
  rw [canidate, BitVec.toNat_umod, BitVec.toNat_add, BitVec.toNat_ofNat, txBufferCount]
  rw [show (4 : BitVec 64).toNat = 4 from rfl]
  omega

theorem findTxbuf_cases (inl : BitVec 16 → BitVec 32) (hcard : d.iobase ≠ 0) (i n : Nat) :
    (∃ k, i ≤ k ∧ k < i + n ∧ DescriptorFree inl d (canidate d k) ∧
      (∀ j, i ≤ j → j < k → ¬ DescriptorFree inl d (canidate d j)) ∧ findTxbuf inl d i n = canidate d k) ∨
    ((∀ k, i ≤ k → k < i + n → ¬ DescriptorFree inl d (canidate d k)) ∧ findTxbuf inl d i n = -1) := by
  induction n generalizing i with
  | zero =>
    right
    exact ⟨fun k hle hlt => absurd hlt (by omega), rfl⟩
  | succ n ih =>
    rw [findTxbuf]
    by_cases hfree : DescriptorFree inl d (canidate d i)
    · left
      exact ⟨i, Nat.le_refl i, by omega, hfree, fun j hle hlt => absurd hlt (by omega), if_pos hfree.2⟩
    · have hbusy : ∀ j, i ≤ j → j < i + 1 → ¬ DescriptorFree inl d (canidate d j) := by
        intro j hle hlt
        rwa [show j = i by omega]
      rw [if_neg (fun hown => hfree ⟨hcard, hown⟩)]
      rcases ih (i + 1) with ⟨k, hle, hlt, hk, hbefore, hfind⟩ | ⟨hnone, hfind⟩
      · left
        refine ⟨k, by omega, by omega, hk, ?_, hfind⟩
        intro j hij hjk
        rcases Nat.lt_or_ge j (i + 1) with hj | hj
        · exact hbusy j hij hj
        · exact hbefore j hj hjk
      · right
        refine ⟨?_, hfind⟩
        intro k hik hk
        rcases Nat.lt_or_ge k (i + 1) with hj | hj
        · exact hbusy k hik hj
        · exact hnone k hj (by omega)

/-- Every descriptor is a candidate. -/
theorem exists_canidate (d : TxDriver) {c : Nat} (hc : c < txBufferCount) :
    ∃ k, k < txBufferCount ∧ canidate d k = c := by
  refine ⟨(c + (txBufferCount - d.nextTxbuf.toNat % txBufferCount)) % txBufferCount, ?_, ?_⟩
  · exact Nat.mod_lt _ (by decide)
  · rw [canidate_eq]
    simp only [txBufferCount] at hc ⊢
    omega

/-- What the search finds, of a card that is there. -/
theorem findTxbuf_first (inl : BitVec 16 → BitVec 32) (hcard : d.iobase ≠ 0) :
    (∃ c, c < txBufferCount ∧ FirstFree inl d c ∧ findTxbuf inl d 0 txBufferCount = c) ∨
      ((∀ c, c < txBufferCount → ¬ DescriptorFree inl d c) ∧ findTxbuf inl d 0 txBufferCount = -1) := by
  rcases findTxbuf_cases inl hcard 0 txBufferCount with ⟨k, -, hk, hfree, hbefore, hfind⟩ | ⟨hnone, hfind⟩
  · left
    refine ⟨canidate d k, ?_, ⟨k, by omega, canidate_eq d k, hfree, ?_⟩, hfind⟩
    · rw [canidate_eq]
      exact Nat.mod_lt _ (by decide)
    · intro j hj
      rw [← canidate_eq]
      exact hbefore j (Nat.zero_le j) hj
  · right
    refine ⟨?_, hfind⟩
    intro c hc
    obtain ⟨k, hk, rfl⟩ := exists_canidate d hc
    exact hnone k (Nat.zero_le k) (by omega)

theorem FirstFree.unique {c c' : Nat} (h : FirstFree inl d c) (h' : FirstFree inl d c') : c = c' := by
  obtain ⟨k, -, rfl, hfree, hbefore⟩ := h
  obtain ⟨k', -, rfl, hfree', hbefore'⟩ := h'
  rcases Nat.lt_trichotomy k k' with hlt | heq | hgt
  · exact absurd hfree (hbefore' k hlt)
  · rw [heq]
  · exact absurd hfree' (hbefore k' hgt)

theorem FirstFree.found {c : Nat} (h : FirstFree inl d c) :
    d.iobase ≠ 0 ∧ findTxbuf inl d 0 txBufferCount = c := by
  have hfree : c < txBufferCount ∧ DescriptorFree inl d c := by
    obtain ⟨k, -, rfl, hfree, -⟩ := h
    exact ⟨Nat.mod_lt _ (by decide), hfree⟩
  refine ⟨hfree.2.1, ?_⟩
  rcases findTxbuf_first inl hfree.2.1 with ⟨c', -, hfirst, hfind⟩ | ⟨hnone, -⟩
  · rw [hfind, h.unique hfirst]
  · exact absurd hfree.2 (hnone c hfree.1)

theorem send_no_card (hcard : d.iobase = 0) (higherHalf : BitVec 64) (m : Mem) (data size : BitVec 64) :
    rtl8139SendPacket higherHalf inl m d data size =
      { driver := d, mem := m, hwbuf := none, writes := [], outl := [] } :=
  if_pos hcard

theorem send_card (hcard : d.iobase ≠ 0) (higherHalf : BitVec 64) (m : Mem) (data size : BitVec 64) :
    rtl8139SendPacket higherHalf inl m d data size =
      { driver := { d with nextTxbuf := BitVec.ofInt 64 ((findTxbuf inl d 0 txBufferCount + 1).tmod 4) }
        mem := memcpyMem
          (memzero m (txBase higherHalf d (findTxbuf inl d 0 txBufferCount))
            (BitVec.ofNat 64 txBufferSize - paddedSize size).toNat)
          (txBase higherHalf d (findTxbuf inl d 0 txBufferCount)) data (paddedSize size).toNat
        hwbuf := some (findTxbuf inl d 0 txBufferCount)
        writes :=
          byteAddrs (txBase higherHalf d (findTxbuf inl d 0 txBufferCount))
            (BitVec.ofNat 64 txBufferSize - paddedSize size).toNat ++
          byteAddrs (txBase higherHalf d (findTxbuf inl d 0 txBufferCount)) (paddedSize size).toNat
        outl := [(txStatusPort d.iobase (findTxbuf inl d 0 txBufferCount), (paddedSize size).setWidth 32)] } :=
  if_neg hcard

end

/-- What a send is to do: nothing when no descriptor is free; otherwise it uses
    the first free one, moves on to its successor and writes no other port than
    its status register. -/
structure SendCorrect (higherHalf : BitVec 64) (inl : BitVec 16 → BitVec 32) (m : Mem) (d : TxDriver)
    (data size : BitVec 64) : Prop where
  busy : (∀ c, c < txBufferCount → ¬ DescriptorFree inl d c) →
    (rtl8139SendPacket higherHalf inl m d data size).driver.nextTxbuf = d.nextTxbuf ∧
      (rtl8139SendPacket higherHalf inl m d data size).mem = m ∧
      (rtl8139SendPacket higherHalf inl m d data size).outl = []
  free : (∃ c, c < txBufferCount ∧ DescriptorFree inl d c) →
    ∃ c : Nat, c < txBufferCount ∧ FirstFree inl d c ∧
      (rtl8139SendPacket higherHalf inl m d data size).hwbuf = some c ∧
      (rtl8139SendPacket higherHalf inl m d data size).driver.nextTxbuf =
        BitVec.ofNat 64 ((c + 1) % txBufferCount) ∧
      ∃ value, (rtl8139SendPacket higherHalf inl m d data size).outl = [(txStatusPort d.iobase c, value)]

theorem next_of_found (c : Nat) :
    BitVec.ofInt 64 (((c : Int) + 1).tmod 4) = BitVec.ofNat 64 ((c + 1) % txBufferCount) := by
  have hcast : ((c : Int) + 1).tmod 4 = (((c + 1) % txBufferCount : Nat) : Int) := by
    rw [Int.natCast_emod, Int.tmod_eq_emod_of_nonneg (by omega)]
    rfl
  rw [hcast, BitVec.ofInt_natCast]

/-- **When a send without a free descriptor changes nothing.** For every driver
    state, packet and answers of the device: a send does what it is to do if and
    only if there is no card or some descriptor is free. With all four in use it
    goes on with descriptor -1. -/
theorem send_correct_iff (higherHalf : BitVec 64) (inl : BitVec 16 → BitVec 32) (m : Mem) (d : TxDriver)
    (data size : BitVec 64) :
    SendCorrect higherHalf inl m d data size ↔
      d.iobase = 0 ∨ ∃ c, c < txBufferCount ∧ DescriptorFree inl d c := by
  refine ⟨?_, ?_⟩
  · intro h
    by_contra hneither
    obtain ⟨hcard, hnone⟩ := not_or.mp hneither
    obtain ⟨-, -, houtl⟩ := h.busy (fun c hc hfree => hnone ⟨c, hc, hfree⟩)
    rw [send_card hcard] at houtl
    cases houtl
  · intro h
    by_cases hcard : d.iobase = 0
    · refine ⟨?_, ?_⟩
      · intro _
        rw [send_no_card hcard]
        exact ⟨rfl, rfl, rfl⟩
      · intro hfree
        obtain ⟨c, -, hfree⟩ := hfree
        exact absurd hcard hfree.1
    · obtain ⟨c, hc, hfree⟩ := h.resolve_left hcard
      refine ⟨fun hnone => absurd hfree (hnone c hc), ?_⟩
      intro _
      rcases findTxbuf_first inl hcard with ⟨k, hk, hfirst, hfind⟩ | ⟨hnone, -⟩
      · rw [send_card hcard, hfind]
        exact ⟨k, hk, hfirst, rfl, next_of_found k, _, rfl⟩
      · exact absurd hfree (hnone c hc)

/-- A card at port `0x300`, with the cursor at descriptor 2. -/
def idleCard : TxDriver := { iobase := 0x300, txbufs := fun _ => 0, nextTxbuf := 2 }

/-- All four descriptors in use: the cursor goes back to 0, and the port in
    front of the first status register is written. -/
theorem send_correct_iff_all_busy :
    ¬ SendCorrect 0xFFFF800000000000 (fun _ => 0) (fun _ => 0) idleCard 0x9000 60 ∧
      (rtl8139SendPacket 0xFFFF800000000000 (fun _ => 0) (fun _ => 0) idleCard 0x9000 60).driver.nextTxbuf = 0 ∧
      (rtl8139SendPacket 0xFFFF800000000000 (fun _ => 0) (fun _ => 0) idleCard 0x9000 60).outl = [(0x30C, 60)] := by
  refine ⟨?_, by decide, by decide⟩
  intro h
  obtain ⟨-, -, houtl⟩ := h.busy (fun c _ hfree => hfree.2 (show (0 : BitVec 32) &&& txStatusOwn = 0 by decide))
  exact absurd houtl (by decide)

end Qnixx
