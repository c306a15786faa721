import Mathlib.Algebra.Group.Nat.Defs
import Mathlib.Logic.Function.Basic
import Qnixx.Lib.ByteMem

/- The receive path of the RTL8139 driver (`dev/net/rtl8139.c`). `recieve`
   reads the packet at `rxbuf + rxbuf_offset` from memory. It returns the new
   driver state together with what it did: the addresses it read, the number
   of bytes it copied and the value it wrote to CAPR. `packet_buf` is a block
   of its own. -/
namespace Qnixx
open ByteMem

/-- `RX_BUFFER_SIZE`, `PACKET_SIZE_MAX`, `PACKET_SIZE_MIN`. -/
def rxBufferSize : Nat := 32768
def packetSizeMax : Nat := 0x600
def packetSizeMin : Nat := 0x16

def rxOk : BitVec 16 := 0x0001
def rxFrameAlignmentError : BitVec 16 := 0x0002
def rxCrcError : BitVec 16 := 0x0004
def rxInvalidSymbolError : BitVec 16 := 0x0020

/-- The driver's variables; `packetBuf` is the block `packet_buf` points to. -/
structure RxDriver where
  rxbufOffset : BitVec 64
  packetBuf : Nat → BitVec 8

/-- What one call of `recieve` did. -/
structure RxCall where
  driver : RxDriver
  reads : List (BitVec 64)
  copied : Option Nat
  capr : Option (BitVec 16)

def isError (status : BitVec 16) : Bool :=
  status &&& rxOk == 0 ||
    status &&& (rxInvalidSymbolError ||| rxCrcError ||| rxFrameAlignmentError) != 0

/-- The test before the early return. -/
def rejects (status len : BitVec 16) : Bool :=
  isError status || decide (len.toNat ≥ packetSizeMax) || decide (len.toNat < packetSizeMin)

/-- `memcpy` from memory into a block. -/
def memcpy (dst : Nat → BitVec 8) (m : Mem) (src : BitVec 64) : Nat → Nat → BitVec 8
  | 0 => dst
  | n + 1 => Function.update (memcpy dst m src n) n (m (src + BitVec.ofNat 64 n))

/-- `((rxbuf_offset + len + 4 + 3) & ~3) % RX_BUFFER_SIZE`, in `ssize_t`. -/
def nextOffset (rxbufOffset : BitVec 64) (len : BitVec 16) : BitVec 64 :=
  BitVec.srem ((rxbufOffset + len.setWidth 64 + 4 + 3) &&& ~~~(3 : BitVec 64)) (BitVec.ofNat 64 rxBufferSize)

def recieve (m : Mem) (rxbuf : BitVec 64) (d : RxDriver) : RxCall :=
  let packet := rxbuf + d.rxbufOffset
  let status := load16 m packet
  let len := load16 m (packet + 2)
  let header := [packet, packet + 1, packet + 2, packet + 3]
  if rejects status len then
    -- neither the offset nor CAPR moves past a packet that is refused
    { driver := d, reads := header, copied := none, capr := none }
  else
    let n := len.toNat - 4
    let offset := nextOffset d.rxbufOffset len
    { driver :=
        { packetBuf := memcpy d.packetBuf m (packet + 4) n
          rxbufOffset := offset.srem (BitVec.ofNat 64 rxBufferSize) }
      reads := header ++ (List.range n).map (fun i => packet + 4 + BitVec.ofNat 64 i)
      copied := some n
      capr := some ((offset - 0x10).setWidth 16) }

/-! The arithmetic of the offset. -/

theorem mod_rxBufferSize_lt (n : Nat) : n % rxBufferSize < rxBufferSize := Nat.mod_lt n (by decide)

theorem and_not_three (x : BitVec 64) : x &&& ~~~(3 : BitVec 64) = (x >>> 2) <<< 2 := by
  apply BitVec.eq_of_getLsbD_eq
  intro i hi
  have hthree : (3 : BitVec 64).getLsbD i = decide (i < 2) := by
    match i with
    | 0 => rfl
    | 1 => rfl
    | k + 2 =>
      have hlt : (3 : Nat) < 2 ^ (k + 2) := by
        have := Nat.one_le_two_pow (n := k)
        rw [Nat.pow_add]
        omega
      rw [BitVec.ofNat_eq_ofNat, BitVec.getLsbD_ofNat, Nat.testBit_lt_two_pow hlt]
      simp
  rw [BitVec.getLsbD_and, BitVec.getLsbD_not, hthree, BitVec.getLsbD_shiftLeft,
    BitVec.getLsbD_ushiftRight]
  by_cases h2 : i < 2
  · simp [hi, h2]
  · simp [hi, h2, show 2 + (i - 2) = i by omega]

theorem and_not_three_toNat {x : BitVec 64} : (x &&& ~~~(3 : BitVec 64)).toNat = x.toNat / 4 * 4 := by
  rw [and_not_three, BitVec.toNat_shiftLeft, BitVec.toNat_ushiftRight, Nat.shiftRight_eq_div_pow,
    Nat.shiftLeft_eq]
  have := x.isLt
  omega

/-- On offsets below the sign bit the C remainder is the one on naturals. -/
theorem srem_toNat {x : BitVec 64} (hx : x.toNat < 2^63) :
    (x.srem (BitVec.ofNat 64 rxBufferSize)).toNat = x.toNat % rxBufferSize := by
  have hmx : x.msb = false := by rw [BitVec.msb_eq_false_iff_two_mul_lt]; omega
  have hms : (BitVec.ofNat 64 rxBufferSize).msb = false := by decide
  rw [BitVec.srem_eq, hmx, hms]
  simp only [BitVec.toNat_umod]
  rfl

theorem nextOffset_toNat {off : BitVec 64} {len : BitVec 16} (hoff : off.toNat < rxBufferSize) :
    (nextOffset off len).toNat = (off.toNat + len.toNat + 7) / 4 * 4 % rxBufferSize := by
  have hlen := len.isLt
  simp only [rxBufferSize] at hoff
  have hsum : (off + len.setWidth 64 + 4 + 3).toNat = off.toNat + len.toNat + 7 := by bv_omega
  rw [nextOffset, srem_toNat, and_not_three_toNat, hsum]
  rw [and_not_three_toNat, hsum]
  omega

theorem memcpy_eq (dst : Nat → BitVec 8) (m : Mem) (src : BitVec 64) (n i : Nat) :
    memcpy dst m src n i = if i < n then m (src + BitVec.ofNat 64 i) else dst i := by
  induction n with
  | zero => simp [memcpy]
  | succ n ih =>
    by_cases hi : i = n
    · subst hi
      rw [memcpy, Function.update_self, if_pos (Nat.lt_succ_self i)]
    · rw [memcpy, Function.update_of_ne hi, ih]
      simp only [show i < n ↔ i < n + 1 by omega]

end Qnixx
